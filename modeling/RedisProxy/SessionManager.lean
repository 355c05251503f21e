import RedisProxy.SimpleResp
import RedisProxy.Library.Prog
import Std.Data.TreeMap

/-!
# Sessions

A client connection has a session: a `SessionCtx` that puts the replies back
into the order of the requests, and an entry in the session table that
`SessionManager` keeps by session id. Replies are computed by a pool of
workers and arrive in any order. The context counts the commands it has
answered in `to_send_command_id`; a reply with that number is written at once,
any other is buffered, and then whatever is buffered in sequence is written.

Writing is a system call, and what it returns is open (`Prog WriteResult`). A
context is shared: the table and the workers that looked it up each hold a
`std::shared_ptr` to it. `SessionManager` therefore keeps the contexts apart
from the table, which holds their positions, and a context outlives its entry.
-/

namespace LogcabinRedisProxy

open Bytes

/-! ## Writing to a descriptor -/

/-- A call of `write`, with the bytes offered. -/
structure WriteCall where
  /-- The descriptor. -/
  fd : ℤ
  /-- The bytes offered. -/
  buf : Bytes
  deriving DecidableEq

/-- What `write` returns: `-1`, or how many of the bytes it took, at most
`0x7ffff000` in one call. -/
abbrev WriteResult (w : WriteCall) : Type :=
  { n : ℤ // -1 ≤ n ∧ n ≤ w.buf.length ∧ n ≤ 0x7ffff000 }

/-- The loop of `reply`. The source compares the `int` `sent_size` with a
`size_t`, so a negative `sent_size` is not below the length. -/
def replyLoop (fd : ℤ) (content : Bytes) (sentSize : ℤ) : Prog WriteResult ℤ :=
  if _h : 0 ≤ sentSize ∧ sentSize < content.length then
    .call ⟨fd, content.drop sentSize.toNat⟩ fun oneSendSize =>
      if 0 ≤ oneSendSize.1 then pure oneSendSize.1
      else replyLoop fd content (sentSize + oneSendSize.1)
  else pure 1
termination_by (sentSize + 1).toNat
decreasing_by omega

/-- `reply`. -/
def reply (fd : ℤ) (content : Bytes) : Prog WriteResult ℤ := replyLoop fd content 0

/-! ## A session -/

/-- `SessionCtx`. -/
structure SessionCtx where
  /-- `to_send_command_id`: the number of the next reply to write. -/
  toSendCommandId : Int32
  /-- `fd`. -/
  fd : ℤ
  /-- `buffered_responses`: replies that are not yet due, by number. -/
  bufferedResponses : Std.TreeMap Int32 Bytes
  /-- `is_eof_reach`. -/
  isEofReach : Bool

namespace SessionCtx

/-- `SessionCtx::SessionCtx`. -/
def new (fd : ℤ) : SessionCtx where
  toSendCommandId := 0
  fd := fd
  bufferedResponses := ∅
  isEofReach := false

/-- The number `command_id` has been answered, or counts as such. -/
def advance (ctx : SessionCtx) : SessionCtx :=
  { ctx with toSendCommandId := ctx.toSendCommandId + 1 }

/-- `buffered_responses.erase`. -/
def dropBuffered (ctx : SessionCtx) (commandId : Int32) : SessionCtx :=
  { ctx with bufferedResponses := ctx.bufferedResponses.erase commandId }

/-- `buffered_responses.insert`, which keeps an entry that is there. -/
def buffer (ctx : SessionCtx) (commandId : Int32) (resp : Bytes) : SessionCtx :=
  { ctx with bufferedResponses := ctx.bufferedResponses.insertIfNew commandId resp }

/-- `is_eof_reach = true`. -/
def reachEof (ctx : SessionCtx) : SessionCtx := { ctx with isEofReach := true }

/-- The loop of `send_first_response`. The iterator goes through the buffered
replies in the order of their numbers; those it has passed are erased. -/
def sendLoop (ctx : SessionCtx) (replyResult : ℤ) :
    List (Int32 × Bytes) → Prog WriteResult (SessionCtx × ℤ)
  | [] => pure (ctx, replyResult)
  | (commandId, resp) :: it =>
    if commandId = ctx.toSendCommandId then do
      let replyResult ← reply ctx.fd resp
      if replyResult ≤ 0 then pure (ctx, replyResult)
      else sendLoop (ctx.advance.dropBuffered commandId) replyResult it
    else pure (ctx, replyResult)

/-- `SessionCtx::send_first_response`. -/
def sendFirstResponse (ctx : SessionCtx) : Prog WriteResult SessionCtx := do
  let (ctx, replyResult) ← ctx.sendLoop 1 ctx.bufferedResponses.toList
  pure (if replyResult ≤ 0 then ctx.reachEof else ctx)

/-- `SessionCtx::insert_new_response`. -/
def insertNewResponse (ctx : SessionCtx) (commandId : Int32) (resp : Bytes) :
    Prog WriteResult SessionCtx :=
  if commandId = ctx.toSendCommandId then do
    let replyResult ← reply ctx.fd resp
    (if replyResult ≤ 0 then ctx.reachEof.advance else ctx.advance).sendFirstResponse
  else
    (ctx.buffer commandId resp).sendFirstResponse

end SessionCtx

/-! ## The session table -/

/-- `SessionManager`. A `std::shared_ptr` to a context is its position in
`ctxs`. -/
structure SessionManager where
  /-- `session_counter`, which the constructor does not set. -/
  sessionCounter : Int32
  /-- `ctx_map`: the context of each session id. -/
  ctxMap : Std.TreeMap Int32 ℕ
  /-- The contexts made so far. -/
  ctxs : List SessionCtx

namespace SessionManager

/-- `SessionManager::SessionManager`. -/
def new (sessionCounter : Int32) : SessionManager where
  sessionCounter := sessionCounter
  ctxMap := ∅
  ctxs := []

/-- `SessionManager::get_next_session_counter_number`. -/
def getNextSessionCounterNumber (m : SessionManager) : Int32 := m.sessionCounter + 1

/-- `SessionManager::insert_new_staus`: the table and the session id. The
`insert` of the map keeps an entry that is there. -/
def insertNewStaus (m : SessionManager) (fd : ℤ) : SessionManager × Int32 :=
  let sessionId := m.getNextSessionCounterNumber
  ({ sessionCounter := sessionId
     ctxMap := m.ctxMap.insertIfNew sessionId m.ctxs.length
     ctxs := m.ctxs ++ [SessionCtx.new fd] }, sessionId)

/-- `SessionManager::get_ctx`. -/
def getCtx (m : SessionManager) (sessionId : Int32) : Option ℕ := m.ctxMap[sessionId]?

/-- `SessionManager::erase_session`: the table, and the descriptor it
closes. -/
def eraseSession (m : SessionManager) (sessionId : Int32) : SessionManager × Option ℤ :=
  match m.ctxMap[sessionId]? with
  | some p =>
    ({ m with
        ctxs := m.ctxs.modify p SessionCtx.reachEof
        ctxMap := m.ctxMap.erase sessionId }, m.ctxs[p]?.map SessionCtx.fd)
  | none => (m, none)

/-- A call on the context behind a `std::shared_ptr` has changed it. -/
def setCtx (m : SessionManager) (p : ℕ) (ctx : SessionCtx) : SessionManager :=
  { m with ctxs := m.ctxs.set p ctx }

/-! ## What the table answers after a call -/

/-- The descriptor of a context. -/
def fdAt (m : SessionManager) (p : ℕ) : Option ℤ := m.ctxs[p]?.map SessionCtx.fd

/-- The descriptor of a session. -/
def fdOf (m : SessionManager) (sessionId : Int32) : Option ℤ := (m.getCtx sessionId).bind m.fdAt

variable {m : SessionManager} {fd : ℤ} {sessionId id : Int32} {p : ℕ}

theorem getCtx_insertNewStaus :
    (m.insertNewStaus fd).1.getCtx id
      = if m.getNextSessionCounterNumber = id ∧ m.getCtx id = none then some m.ctxs.length
        else m.getCtx id := by
  show (m.ctxMap.insertIfNew m.getNextSessionCounterNumber m.ctxs.length)[id]? = _
  rw [Std.TreeMap.getElem?_insertIfNew]
  unfold getCtx
  by_cases hid : m.getNextSessionCounterNumber = id
  · subst hid
    by_cases hm : m.getNextSessionCounterNumber ∈ m.ctxMap
    · rw [Std.TreeMap.getElem?_eq_some_getElem hm]
      simp [hm]
    · rw [Std.TreeMap.getElem?_eq_none hm]
      simp [hm]
  · simp [hid]

theorem fdAt_insertNewStaus :
    (m.insertNewStaus fd).1.fdAt p = if p = m.ctxs.length then some fd else m.fdAt p := by
  show (m.ctxs ++ [SessionCtx.new fd])[p]?.map SessionCtx.fd = _
  rw [List.getElem?_append]
  unfold fdAt
  rcases lt_trichotomy p m.ctxs.length with hlt | rfl | hgt
  · rw [if_pos hlt, if_neg hlt.ne]
  · simp [SessionCtx.new]
  · rw [if_neg hgt.not_gt, if_neg hgt.ne', List.getElem?_eq_none (by simp; omega),
      List.getElem?_eq_none hgt.le]

theorem getCtx_eraseSession :
    (m.eraseSession sessionId).1.getCtx id = if sessionId = id then none else m.getCtx id := by
  unfold eraseSession getCtx
  cases h : m.ctxMap[sessionId]? with
  | none =>
    by_cases hid : sessionId = id
    · rw [if_pos hid, ← hid, h]
    · rw [if_neg hid]
  | some p => simp only [Std.TreeMap.getElem?_erase, Std.compare_eq_iff_eq]

theorem fdAt_eraseSession : (m.eraseSession sessionId).1.fdAt p = m.fdAt p := by
  unfold eraseSession fdAt
  cases m.ctxMap[sessionId]? with
  | none => rfl
  | some q =>
    show (m.ctxs.modify q SessionCtx.reachEof)[p]?.map SessionCtx.fd = _
    rw [List.getElem?_modify]
    by_cases hq : q = p
    · simp only [if_pos hq, Option.map_eq_map, Option.map_map]
      rfl
    · simp only [if_neg hq, Option.map_eq_map, Option.map_id']

/-- `erase_session` closes the descriptor of the session. -/
theorem snd_eraseSession : (m.eraseSession sessionId).2 = m.fdOf sessionId := by
  unfold eraseSession fdOf getCtx
  cases m.ctxMap[sessionId]? with
  | none => rfl
  | some p => rfl

theorem fdOf_eq_none (h : m.getCtx id = none) : m.fdOf id = none := by
  unfold fdOf
  rw [h]
  rfl

theorem getCtx_ne_none (h : m.fdOf id = some fd) : m.getCtx id ≠ none := by
  intro hnone
  rw [fdOf_eq_none hnone] at h
  cases h

/-- An insertion changes no descriptor but that of its own session. -/
theorem fdOf_insertNewStaus (hvalid : m.getCtx id ≠ none → m.fdOf id ≠ none) :
    (m.insertNewStaus fd).1.fdOf id
      = if m.getNextSessionCounterNumber = id ∧ m.getCtx id = none then some fd
        else m.fdOf id := by
  unfold fdOf
  rw [getCtx_insertNewStaus]
  split
  · exact fdAt_insertNewStaus.trans (if_pos rfl)
  · cases hctx : m.getCtx id with
    | none => rfl
    | some p =>
      have hlt : p ≠ m.ctxs.length := by
        rintro rfl
        refine hvalid (by rw [hctx]; exact nofun) ?_
        unfold fdOf
        rw [hctx]
        show (m.ctxs[m.ctxs.length]?).map SessionCtx.fd = none
        rw [List.getElem?_eq_none (le_refl _)]
        rfl
      exact fdAt_insertNewStaus.trans (if_neg hlt)

/-- An erased session has no descriptor, and the others keep theirs. -/
theorem fdOf_eraseSession :
    (m.eraseSession sessionId).1.fdOf id = if sessionId = id then none else m.fdOf id := by
  unfold fdOf
  rw [getCtx_eraseSession]
  split
  · rfl
  · exact congrArg ((m.getCtx id).bind ·) (funext fun p => fdAt_eraseSession)

end SessionManager

end LogcabinRedisProxy
