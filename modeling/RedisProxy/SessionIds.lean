import RedisProxy.SessionManager
import Mathlib.Data.List.Nodup

/-!
# What a session id names

`insert_new_staus` numbers the sessions by a counter of 32 bits, and the
`insert` of the table keeps an entry that is there. After `2 ^ 32` more sessions
the counter has come round. If the session that had the number has not been
erased by then, the new session is told the same number and gets no entry: its
replies go to the old session, and erasing it closes the descriptor of the old
one (`not_namesItsOwn_longLived`).

Nothing else goes wrong. Whatever the counter starts from, every id names its own
session through a run exactly if no session of the run lives that long
(`namesItsOwn_iff`).
-/

namespace LogcabinRedisProxy

/-! ## Runs of the session table -/

/-- A call that changes the session table. -/
inductive SessionCall where
  | insertNewStaus (fd : ℤ)
  | eraseSession (sessionId : Int32)
  deriving DecidableEq

/-- **A session, as the caller of `insert_new_staus` knows it.** -/
structure LiveSession where
  /-- The id the call has returned. -/
  sessionId : Int32
  /-- The context the call has made. -/
  ctx : ℕ
  /-- The descriptor it was called with. -/
  fd : ℤ
  deriving DecidableEq

/-- The session table, and the sessions that have not been erased. -/
structure SessionHistory where
  /-- The session table. -/
  manager : SessionManager
  /-- The sessions inserted whose id has not been erased since. -/
  live : List LiveSession

namespace SessionHistory

/-- No session has been inserted. -/
def new (sessionCounter : Int32) : SessionHistory := ⟨.new sessionCounter, []⟩

/-- A call. -/
def step (s : SessionHistory) : SessionCall → SessionHistory
  | .insertNewStaus fd =>
    let (manager, sessionId) := s.manager.insertNewStaus fd
    ⟨manager, s.live ++ [⟨sessionId, s.manager.ctxs.length, fd⟩]⟩
  | .eraseSession sessionId =>
    let (manager, _closed) := s.manager.eraseSession sessionId
    ⟨manager, s.live.filter fun x => x.sessionId ≠ sessionId⟩

/-- The table after a sequence of calls. -/
def after (sessionCounter : Int32) (calls : List SessionCall) : SessionHistory :=
  calls.foldl step (new sessionCounter)

/-- **Every id names its own session.** -/
structure NamesItsOwn (s : SessionHistory) : Prop where
  /-- The id of a session leads to the context made for it, with its
  descriptor. -/
  resolves : ∀ x ∈ s.live, s.manager.getCtx x.sessionId = some x.ctx
    ∧ s.manager.fdAt x.ctx = some x.fd
  /-- Sessions have different ids. -/
  distinct : (s.live.map LiveSession.sessionId).Nodup
  /-- Erasing an id closes no descriptor but that of the session it names. -/
  closes : ∀ sessionId fd, (s.manager.eraseSession sessionId).2 = some fd →
    ∃ x ∈ s.live, x.sessionId = sessionId ∧ x.fd = fd

/-- How many sessions a sequence of calls inserts. -/
def inserts (calls : List SessionCall) : ℕ :=
  calls.countP fun
    | .insertNewStaus _ => true
    | .eraseSession _ => false

/-- The id of the session inserted after a sequence of calls. -/
def nextId (c : Int32) (calls : List SessionCall) : Int32 := c + Int32.ofNat (inserts calls + 1)

/-- **A session outlives the counter**: it has not been erased when the `2 ^ 32`th
session after it is inserted. -/
def OutlivesCounter (c : Int32) (calls : List SessionCall) : Prop :=
  ∃ before fd between fd' rest,
    calls = before ++ .insertNewStaus fd :: (between ++ .insertNewStaus fd' :: rest)
      ∧ inserts between = 2 ^ 32 - 1 ∧ .eraseSession (nextId c before) ∉ between

variable {c : Int32} {calls before between : List SessionCall} {s : SessionHistory}

theorem after_snoc (c : Int32) (calls : List SessionCall) (call : SessionCall) :
    after c (calls ++ [call]) = (after c calls).step call :=
  List.foldl_concat step _ call calls

/-! ## Counting -/

theorem inserts_append (calls calls' : List SessionCall) :
    inserts (calls ++ calls') = inserts calls + inserts calls' :=
  List.countP_append

@[simp] theorem inserts_insert (fd : ℤ) (calls : List SessionCall) :
    inserts (.insertNewStaus fd :: calls) = inserts calls + 1 :=
  List.countP_cons_of_pos rfl

@[simp] theorem inserts_erase (sessionId : Int32) (calls : List SessionCall) :
    inserts (.eraseSession sessionId :: calls) = inserts calls :=
  List.countP_cons_of_neg Bool.false_ne_true

theorem ofNat_eq_ofNat_iff {a b : ℕ} :
    Int32.ofNat a = Int32.ofNat b ↔ a % 2 ^ 32 = b % 2 ^ 32 := by
  rw [← Int32.toBitVec_inj, Int32.toBitVec_ofNat', Int32.toBitVec_ofNat', ← BitVec.toNat_inj,
    BitVec.toNat_ofNat, BitVec.toNat_ofNat]

/-- Ids are the same when the counter has come round. -/
theorem nextId_eq_iff :
    nextId c calls = nextId c before ↔ inserts calls % 2 ^ 32 = inserts before % 2 ^ 32 := by
  unfold nextId
  rw [Int32.add_right_inj, ofNat_eq_ofNat_iff]
  omega

/-- **The counter counts the sessions.** -/
theorem getNextSessionCounterNumber_after (c : Int32) (calls : List SessionCall) :
    (after c calls).manager.getNextSessionCounterNumber = nextId c calls := by
  induction calls using List.reverseRecOn with
  | nil => rfl
  | append_singleton calls call ih =>
    rw [after_snoc]
    cases call with
    | insertNewStaus fd =>
      show (after c calls).manager.getNextSessionCounterNumber + 1 = _
      rw [ih, nextId, nextId, inserts_append, Int32.add_assoc]
      exact congrArg (c + ·) (Int32.ofNat_add (inserts calls + 1) 1).symm
    | eraseSession sessionId =>
      have hcounter : ((after c calls).manager.eraseSession sessionId).1.sessionCounter
          = (after c calls).manager.sessionCounter := by
        unfold SessionManager.eraseSession
        split <;> rfl
      show ((after c calls).manager.eraseSession sessionId).1.sessionCounter + 1 = _
      rw [hcounter, nextId, inserts_append]
      exact ih

/-- A sequence of calls up to one of its insertions. -/
theorem exists_insert_at {n : ℕ} (hn : n < inserts calls) :
    ∃ calls₁ fd calls₂, calls = calls₁ ++ .insertNewStaus fd :: calls₂ ∧ inserts calls₁ = n := by
  induction calls generalizing n with
  | nil => exact absurd hn (Nat.not_lt_zero n)
  | cons call calls ih =>
    cases call with
    | insertNewStaus fd =>
      cases n with
      | zero => exact ⟨[], fd, calls, rfl, rfl⟩
      | succ n =>
        rw [inserts_insert] at hn
        obtain ⟨calls₁, fd', calls₂, rfl, hlen⟩ := ih (Nat.lt_of_succ_lt_succ hn)
        exact ⟨.insertNewStaus fd :: calls₁, fd', calls₂, rfl, by rw [inserts_insert, hlen]⟩
    | eraseSession sessionId =>
      rw [inserts_erase] at hn
      obtain ⟨calls₁, fd', calls₂, rfl, hlen⟩ := ih hn
      exact ⟨.eraseSession sessionId :: calls₁, fd', calls₂, rfl, by rw [inserts_erase, hlen]⟩

/-! ## Live sessions -/

/-- A live session was inserted, and its id has not been erased since. -/
theorem exists_of_mem_live {x : LiveSession} (hx : x ∈ (after c calls).live) :
    ∃ before between, calls = before ++ .insertNewStaus x.fd :: between
      ∧ x.sessionId = nextId c before ∧ .eraseSession x.sessionId ∉ between := by
  induction calls using List.reverseRecOn with
  | nil => exact absurd hx List.not_mem_nil
  | append_singleton calls call ih =>
    rw [after_snoc] at hx
    cases call with
    | insertNewStaus fd =>
      rcases List.mem_append.mp hx with hold | hnew
      · obtain ⟨before, between, rfl, hid, hlive⟩ := ih hold
        refine ⟨before, between ++ [.insertNewStaus fd], by simp, hid, ?_⟩
        simpa using hlive
      · obtain rfl := List.mem_singleton.mp hnew
        exact ⟨calls, [], rfl, getNextSessionCounterNumber_after c calls, List.not_mem_nil⟩
    | eraseSession sessionId =>
      obtain ⟨hold, hne⟩ := List.mem_filter.mp hx
      obtain ⟨before, between, rfl, hid, hlive⟩ := ih hold
      refine ⟨before, between ++ [.eraseSession sessionId], by simp, hid, ?_⟩
      simpa using ⟨hlive, of_decide_eq_true hne⟩

/-- A session that has been inserted is live until its id is erased. -/
theorem exists_mem_live (fd : ℤ) (hlive : .eraseSession (nextId c before) ∉ between) :
    ∃ x ∈ (after c (before ++ .insertNewStaus fd :: between)).live,
      x.sessionId = nextId c before := by
  induction between using List.reverseRecOn with
  | nil =>
    rw [after_snoc]
    exact ⟨_, List.mem_append_right _ (List.mem_singleton_self _),
      getNextSessionCounterNumber_after c before⟩
  | append_singleton between call ih =>
    rw [List.mem_append, List.mem_singleton, not_or] at hlive
    obtain ⟨x, hx, hid⟩ := ih hlive.1
    rw [← List.cons_append, ← List.append_assoc, after_snoc]
    refine ⟨x, ?_, hid⟩
    cases call with
    | insertNewStaus fd' => exact List.mem_append_left _ hx
    | eraseSession sessionId =>
      refine List.mem_filter.mpr ⟨hx, decide_eq_true fun heq => hlive.2 ?_⟩
      rw [← hid, heq]

/-! ## What a call preserves -/

/-- **The table has an entry for each live session and no other.** -/
structure Tracks (s : SessionHistory) : Prop where
  resolves : ∀ x ∈ s.live, s.manager.getCtx x.sessionId = some x.ctx
    ∧ s.manager.fdAt x.ctx = some x.fd
  distinct : (s.live.map LiveSession.sessionId).Nodup
  listed : ∀ sessionId p, s.manager.getCtx sessionId = some p →
    ∃ x ∈ s.live, x.sessionId = sessionId ∧ x.ctx = p

theorem tracks_new (c : Int32) : (new c).Tracks where
  resolves x hx := absurd hx List.not_mem_nil
  distinct := List.nodup_nil
  listed sessionId p h := by
    rw [show (new c).manager.getCtx sessionId = none from Std.TreeMap.getElem?_emptyc] at h
    cases h

theorem Tracks.namesItsOwn (h : s.Tracks) : s.NamesItsOwn where
  resolves := h.resolves
  distinct := h.distinct
  closes sessionId fd hclosed := by
    rw [SessionManager.snd_eraseSession] at hclosed
    obtain ⟨p, hp, hfd⟩ := Option.bind_eq_some_iff.mp hclosed
    obtain ⟨x, hx, hid, rfl⟩ := h.listed sessionId p hp
    exact ⟨x, hx, hid, Option.some.inj ((h.resolves x hx).2.symm.trans hfd)⟩

/-- An insertion whose id is not taken. -/
theorem Tracks.insertNewStaus (h : s.Tracks) (fd : ℤ)
    (hfresh : ∀ x ∈ s.live, x.sessionId ≠ s.manager.getNextSessionCounterNumber) :
    (s.step (.insertNewStaus fd)).Tracks := by
  have hnone : s.manager.getCtx s.manager.getNextSessionCounterNumber = none := by
    refine Option.eq_none_iff_forall_ne_some.mpr fun p hp => ?_
    obtain ⟨x, hx, hid, -⟩ := h.listed _ p hp
    exact hfresh x hx hid
  refine ⟨?_, ?_, ?_⟩
  · intro x hx
    show (s.manager.insertNewStaus fd).1.getCtx _ = _ ∧ (s.manager.insertNewStaus fd).1.fdAt _ = _
    rw [SessionManager.getCtx_insertNewStaus, SessionManager.fdAt_insertNewStaus]
    rcases List.mem_append.mp hx with hold | hnew
    · obtain ⟨hctx, hfd⟩ := h.resolves x hold
      have hlt : x.ctx < s.manager.ctxs.length := by
        obtain ⟨ctx, hget, -⟩ := Option.map_eq_some_iff.mp hfd
        exact (List.getElem?_eq_some_iff.mp hget).1
      rw [if_neg fun heq => hfresh x hold heq.1.symm, if_neg hlt.ne]
      exact ⟨hctx, hfd⟩
    · obtain rfl := List.mem_singleton.mp hnew
      exact ⟨if_pos ⟨rfl, hnone⟩, if_pos rfl⟩
  · show ((s.live ++ [_]).map LiveSession.sessionId).Nodup
    rw [List.map_append, List.nodup_append]
    refine ⟨h.distinct, List.nodup_singleton _, ?_⟩
    rintro id hid id' hid' rfl
    obtain ⟨x, hx, rfl⟩ := List.mem_map.mp hid
    exact hfresh x hx (List.mem_singleton.mp hid')
  · intro sessionId p hp
    change (s.manager.insertNewStaus fd).1.getCtx sessionId = some p at hp
    rw [SessionManager.getCtx_insertNewStaus] at hp
    split at hp
    · rename_i hid
      exact ⟨_, List.mem_append_right _ (List.mem_singleton_self _), hid.1, Option.some.inj hp⟩
    · obtain ⟨x, hx, hid, hctx⟩ := h.listed sessionId p hp
      exact ⟨x, List.mem_append_left _ hx, hid, hctx⟩

theorem Tracks.eraseSession (h : s.Tracks) (sessionId : Int32) :
    (s.step (.eraseSession sessionId)).Tracks := by
  refine ⟨?_, ?_, ?_⟩
  · intro x hx
    obtain ⟨hold, hne⟩ := List.mem_filter.mp hx
    show (s.manager.eraseSession sessionId).1.getCtx _ = _
      ∧ (s.manager.eraseSession sessionId).1.fdAt _ = _
    rw [SessionManager.getCtx_eraseSession, SessionManager.fdAt_eraseSession,
      if_neg fun heq => of_decide_eq_true hne heq.symm]
    exact h.resolves x hold
  · exact h.distinct.sublist (List.filter_sublist.map _)
  · intro id p hp
    change (s.manager.eraseSession sessionId).1.getCtx id = some p at hp
    rw [SessionManager.getCtx_eraseSession] at hp
    split at hp
    · cases hp
    · rename_i hne
      obtain ⟨x, hx, hid, hctx⟩ := h.listed id p hp
      exact ⟨x, List.mem_filter.mpr ⟨hx, decide_eq_true fun heq => hne (heq.symm.trans hid)⟩,
        hid, hctx⟩

/-! ## Every run -/

/-- What outlives the counter in a run does so in a longer one. -/
theorem OutlivesCounter.mono (h : OutlivesCounter c before) (hpre : before <+: calls) :
    OutlivesCounter c calls := by
  obtain ⟨after, rfl⟩ := hpre
  obtain ⟨before, fd, between, fd', rest, rfl, hcount, hlive⟩ := h
  exact ⟨before, fd, between, fd', rest ++ after, by simp, hcount, hlive⟩

/-- **A live session with the next id has outlived the counter.** -/
theorem outlivesCounter_of_mem_live {x : LiveSession} (fd : ℤ)
    (hx : x ∈ (after c calls).live)
    (hid : x.sessionId = (after c calls).manager.getNextSessionCounterNumber) :
    OutlivesCounter c (calls ++ [.insertNewStaus fd]) := by
  obtain ⟨before, between, rfl, hx, hlive⟩ := exists_of_mem_live hx
  rw [getNextSessionCounterNumber_after, hx, nextId_eq_iff, inserts_append, inserts_insert] at hid
  -- the counter has come round at least once, and the first time is here
  have hround : 2 ^ 32 - 1 < inserts (between ++ [.insertNewStaus fd]) := by
    rw [inserts_append, inserts_insert]
    omega
  obtain ⟨between₁, fd', rest, hsplit, hcount⟩ := exists_insert_at hround
  refine ⟨before, x.fd, between₁, fd', rest, ?_, hcount, fun hmem => ?_⟩
  · rw [List.append_assoc, List.cons_append, hsplit]
  · have hin : .eraseSession (nextId c before) ∈ between ++ [.insertNewStaus fd] :=
      hsplit ▸ List.mem_append_left _ hmem
    rcases List.mem_append.mp hin with hbetween | hlast
    · exact hlive (hx ▸ hbetween)
    · exact absurd (List.mem_singleton.mp hlast) nofun

/-- **The table tracks the sessions** as long as none outlives the counter. -/
theorem tracks_after (h : ¬ OutlivesCounter c calls) : (after c calls).Tracks := by
  induction calls using List.reverseRecOn with
  | nil => exact tracks_new c
  | append_singleton calls call ih =>
    have htracks := ih fun hcalls => h (hcalls.mono (List.prefix_append calls [call]))
    rw [after_snoc]
    cases call with
    | insertNewStaus fd =>
      exact htracks.insertNewStaus fd fun x hx hid => h (outlivesCounter_of_mem_live fd hx hid)
    | eraseSession sessionId => exact htracks.eraseSession sessionId

/-- **Where a session outlives the counter, two have its id.** -/
theorem OutlivesCounter.not_distinct (h : OutlivesCounter c calls) :
    ∃ pre, pre <+: calls ∧ ¬ ((after c pre).live.map LiveSession.sessionId).Nodup := by
  obtain ⟨before, fd, between, fd', rest, rfl, hcount, hlive⟩ := h
  refine ⟨before ++ .insertNewStaus fd :: between ++ [.insertNewStaus fd'], ⟨rest, by simp⟩, ?_⟩
  obtain ⟨x, hx, hid⟩ := exists_mem_live fd hlive
  rw [after_snoc]
  show ¬ ((_ ++ [_]).map LiveSession.sessionId).Nodup
  rw [List.map_append, List.nodup_append]
  rintro ⟨-, -, hne⟩
  refine hne _ (List.mem_map_of_mem hx) _ (List.mem_singleton_self _) ?_
  show x.sessionId = SessionManager.getNextSessionCounterNumber _
  rw [hid, getNextSessionCounterNumber_after, nextId_eq_iff, inserts_append, inserts_insert,
    hcount]
  omega

/-- **Every id names its own session all through a run** exactly if no session
outlives the counter. -/
theorem namesItsOwn_iff (c : Int32) (calls : List SessionCall) :
    (∀ pre, pre <+: calls → (after c pre).NamesItsOwn) ↔ ¬ OutlivesCounter c calls := by
  constructor
  · intro h houtlives
    obtain ⟨pre, hpre, hnot⟩ := houtlives.not_distinct
    exact hnot (h pre hpre).distinct
  · intro h pre hpre
    exact (tracks_after fun hout => h (hout.mono hpre)).namesItsOwn

/-! ## A connection that stays -/

/-- So many clients come and go, one after the other; their sessions have the
ids from `2` on. -/
def comeAndGo (n : ℕ) : List SessionCall :=
  (List.range n).flatMap fun k => [.insertNewStaus 6, .eraseSession (Int32.ofNat (k + 2))]

theorem inserts_comeAndGo (n : ℕ) : inserts (comeAndGo n) = n := by
  induction n with
  | zero => rfl
  | succ n ih =>
    unfold comeAndGo at ih ⊢
    rw [List.range_succ, List.flatMap_append, inserts_append, ih]
    rfl

/-- The first client stays, `2 ^ 32 - 1` others come and go, and then there is
one more. -/
def longLived : List SessionCall :=
  .insertNewStaus 5 :: (comeAndGo (2 ^ 32 - 1) ++ [.insertNewStaus 7])

/-- **The id of a new session may name an old one.** -/
theorem not_namesItsOwn_longLived :
    ¬ ∀ pre, pre <+: longLived → (after 0 pre).NamesItsOwn := by
  intro h
  have houtlives : OutlivesCounter 0 longLived := by
    refine ⟨[], 5, comeAndGo (2 ^ 32 - 1), 7, [], rfl, inserts_comeAndGo _, fun hmem => ?_⟩
    obtain ⟨k, hk, hmem⟩ := List.mem_flatMap.mp hmem
    have hcall : SessionCall.eraseSession (nextId 0 []) = .eraseSession (Int32.ofNat (k + 2)) := by
      simpa using hmem
    have hone : Int32.ofNat 1 = Int32.ofNat (k + 2) := SessionCall.eraseSession.inj hcall
    have hlt := List.mem_range.mp hk
    rw [ofNat_eq_ofNat_iff] at hone
    omega
  obtain ⟨pre, hpre, hnot⟩ := houtlives.not_distinct
  exact hnot (h pre hpre).distinct

end SessionHistory

end LogcabinRedisProxy
