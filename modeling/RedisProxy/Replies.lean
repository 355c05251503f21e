import RedisProxy.HandlerRuns
import RedisProxy.Library.RespReply

/-!
# Every reply is one RESP value

A reply that is not exactly one value desynchronises every later reply on the
connection, so the bytes `processer_worker` hands to `send_reply` should read
as one value in front of anything, and should carry the data the cluster
returned.

Values of clients are arbitrary bytes. Behind their length, in bulk strings
and arrays of them, they are safe whatever they hold. `handle_mget_request`
writes them as status lines, which hold no CR and no LF: a reply to `MGET` is
one value with the right data exactly if no value it carries holds one
(`reply_iff`).
-/

namespace LogcabinRedisProxy

open Bytes SimpleResp Prog

/-- **The bytes are the value `v`**, whatever follows them. -/
def Encodes (response : Bytes) (v : RespValue) : Prop :=
  ∀ t, readReply (response ++ t) = some (v, t)

/-- The values of an array, if all of them are strings or nil. -/
def elements : RespValue → Option (List (Option Bytes))
  | .array values => values.mapM RespValue.text
  | _ => none

/-- An error reply. -/
def IsError (v : RespValue) : Prop := ∃ text, v = .error text

/-- The reply to a call is `f` of what it returns; an error if it throws. -/
def GivesOrError {α : Type} (f : α → RespValue) (r : Except TreeException α) (v : RespValue) :
    Prop :=
  match r with
  | .ok x => v = f x
  | .error _ => IsError v

/-- The reply to a call is `f` of what it returns, nil if it finds nothing; an
error if it throws otherwise. -/
def GivesOrNil {α : Type} (f : α → RespValue) (r : Except TreeException α) (v : RespValue) :
    Prop :=
  match r with
  | .ok x => v = f x
  | .error .lookup => v = .nil
  | .error .other => IsError v

/-- The array of bulk strings a list is. -/
def arrayOf (values : List Bytes) : RespValue := .array (values.map .bulk)

/-- **What the replies that carry data have to say**, given the calls made and
what they returned. -/
structure Answers (request : List Bytes) (calls : List (Event TreeResult)) (v : RespValue) :
    Prop where
  /-- `GET` reads its key, and gives the stored string or nil. -/
  get : commandOf request = ofString "GET" → ∀ key, request.tail = [key] →
    ∃ r : TreeResult (.readEx key), calls = [⟨.readEx key, r⟩]
      ∧ GivesOrNil RespValue.bulk (r : Except TreeException Bytes) v
  /-- `SMEMBERS` gives the returned list. -/
  smembers : commandOf request = ofString "SMEMBERS" → ∀ key, request.tail = [key] →
    ∃ r : TreeResult (.smembers key), calls = [⟨.smembers key, r⟩]
      ∧ GivesOrError arrayOf (r : Except TreeException (List Bytes)) v
  /-- `LRANGE` gives the returned list. -/
  lrange : commandOf request = ofString "LRANGE" → ∀ key start stop,
    request.tail = [key, start, stop] →
    ∃ r : TreeResult (.lrange key (start ++ ofString " " ++ stop)),
      calls = [⟨.lrange key (start ++ ofString " " ++ stop), r⟩]
      ∧ GivesOrNil arrayOf (r : Except TreeException (List Bytes)) v
  /-- `MGET` reads its keys in order, and gives for each the stored string or
  nil, unless a read fails. -/
  mget : commandOf request = ofString "MGET" → request.tail ≠ [] →
    (∃ found : List (Option Bytes), found.length = request.tail.length
      ∧ calls = List.zipWith readEvent request.tail found ∧ elements v = some found)
    ∨ (∃ key, failedRead key ∈ calls) ∧ IsError v

/-- **A value read for `MGET` holds a CR or an LF.** -/
def LineBreakInMget (request : List Bytes) (calls : List (Event TreeResult)) : Prop :=
  commandOf request = ofString "MGET" ∧ request.tail ≠ []
    ∧ ∃ found : List (Option Bytes), found.length = request.tail.length
      ∧ calls = List.zipWith readEvent request.tail found ∧ ∃ value, some value ∈ found
        ∧ ¬ OneLine value

/-! ## The encodings, read back -/

theorem encodes_errors {text : Bytes} (h : OneLine text) :
    Encodes (encode .errors [text]).response (.error text) :=
  fun t => readValue_error _ h t

theorem encodes_simpleStrings {text : Bytes} (h : OneLine text) :
    Encodes (encode .simpleStrings [text]).response (.simple text) :=
  fun t => readValue_simple _ h t

/-- Integers travel as bulk strings, whatever they are. -/
theorem encodes_integers (value : Bytes) :
    Encodes (encode .integers [value]).response (.bulk value) :=
  fun t => readValue_bulk _ value t

theorem encodes_bulkStrings (value : Bytes) :
    Encodes (encode .bulkStrings [value]).response (.bulk value) :=
  fun t => readValue_bulk _ value t

theorem encodes_nilReply : Encodes nilReply.response .nil := fun t => readValue_nil _ t

/-- A bulk string is read back, whatever bytes it holds. -/
theorem readValue_bulkString (depth : ℕ) (value t : Bytes) :
    readValue (depth + 1) (bulkString value ++ t) = some (.bulk value, t) :=
  readValue_bulk depth value t

/-- **An array is read back** if the texts behind its header are, each as one
value. -/
theorem encodes_array {α : Type} {text : α → Bytes} {value : α → RespValue} {l : List α}
    (h : ∀ a ∈ l, ∀ depth t, readValue (depth + 1) (text a ++ t) = some (value a, t)) :
    Encodes (ofString "*" ++ decimal l.length ++ crlf ++ (l.map text).flatten)
      (.array (l.map value)) := by
  intro t
  have hlen : (ofString "*" ++ decimal l.length ++ crlf ++ ((l.map text).flatten ++ t)).length
      = (decimal l.length ++ crlf ++ ((l.map text).flatten ++ t)).length + 1 := rfl
  have hmany : ∀ depth, readMany (readValue (depth + 1)) l.length ((l.map text).flatten ++ t)
      = some (l.map value, t) :=
    fun depth => readMany_flatten (fun a ha => h a ha depth) t
  rw [List.append_assoc, readReply, hlen, readValue_array]
  exact congrArg _ (hmany _)

theorem encodes_arrays (values : List Bytes) :
    Encodes (encode .arrays values).response (.array (values.map .bulk)) :=
  encodes_array fun value _ depth t => readValue_bulkString depth value t

/-- What `MGET` writes for one key. -/
theorem encodePair_pairOf (found : Option Bytes) :
    encodePair (pairOf found)
      = match found with
        | some value => ofString "+" ++ value ++ crlf
        | none => ofString "$-1" ++ crlf := by
  cases found <;> rfl

/-- The value that stands for what was found under a key. -/
def statusOf : Option Bytes → RespValue
  | some value => .simple value
  | none => .nil

theorem mapM_text_statusOf (found : List (Option Bytes)) :
    (found.map statusOf).mapM RespValue.text = some found := by
  induction found with
  | nil => rfl
  | cons one found ih =>
    have hone : (statusOf one).text = some one := by cases one <;> rfl
    rw [List.map_cons, List.mapM_cons, hone, ih]
    rfl

/-- **Status lines one behind the other.** -/
theorem readMany_pairs (depth : ℕ) {found : List (Option Bytes)}
    (h : ∀ value, some value ∈ found → OneLine value) (t : Bytes) :
    readMany (readValue (depth + 1)) found.length
        (((found.map pairOf).map encodePair).flatten ++ t) = some (found.map statusOf, t) := by
  rw [List.map_map]
  refine readMany_flatten (fun one hone t => ?_) t
  show readValue (depth + 1) (encodePair (pairOf one) ++ t) = _
  rw [encodePair_pairOf]
  cases one with
  | some value => exact readValue_simple depth (h value hone) t
  | none => exact readValue_nil depth t

/-- **A status line that holds a CR or an LF is none, or gives less than its
value**, so what reads as the right values holds none. -/
theorem oneLine_of_readMany_pairs {depth : ℕ} {found : List (Option Bytes)} {t rest : Bytes}
    {vs : List RespValue}
    (h : readMany (readValue (depth + 1)) found.length
        (((found.map pairOf).map encodePair).flatten ++ t) = some (vs, rest))
    (htext : vs.mapM RespValue.text = some found) :
    ∀ value, some value ∈ found → OneLine value := by
  induction found generalizing vs with
  | nil => exact fun value hv => absurd hv List.not_mem_nil
  | cons one found ih =>
    rw [List.map_cons, List.map_cons, List.flatten_cons, List.append_assoc,
      List.length_cons] at h
    obtain ⟨v, b', vs', hv, hvs, rfl⟩ := readMany_succ.mp h
    obtain ⟨hone, htail⟩ : v.text = some one ∧ vs'.mapM RespValue.text = some found := by
      rw [List.mapM_cons] at htext
      obtain ⟨one', h₁, htext⟩ := Option.bind_eq_some_iff.mp htext
      obtain ⟨found', h₂, htext⟩ := Option.bind_eq_some_iff.mp htext
      obtain ⟨rfl, rfl⟩ := List.cons_eq_cons.mp (Option.some.inj htext)
      exact ⟨h₁, h₂⟩
    rw [encodePair_pairOf] at hv
    cases one with
    | none =>
      obtain ⟨-, rfl⟩ := Prod.mk.inj (Option.some.inj ((readValue_nil depth _).symm.trans hv))
      intro value hmem
      exact ih hvs htail value ((List.mem_cons.mp hmem).resolve_left nofun)
    | some value =>
      -- the line read is the value, so the value is a line
      have hplus : (cutCrlf 0 (value ++ crlf
          ++ (((found.map pairOf).map encodePair).flatten ++ t))).bind
            (fun p => (lineText p.1).map fun text => ((.simple text : RespValue), p.2))
              = some (v, b') := by
        rw [← readValue_plus depth, ← hv]
        simp only [List.append_assoc]
      obtain ⟨⟨line, b''⟩, hcut, htext⟩ := Option.bind_eq_some_iff.mp hplus
      obtain ⟨text, hline, heq⟩ := Option.map_eq_some_iff.mp htext
      obtain ⟨rfl, rfl⟩ := Prod.mk.inj heq
      obtain ⟨rfl, hno⟩ := lineText_eq_some_iff.mp hline
      obtain rfl : line = value := Option.some.inj (Option.some.inj hone)
      obtain ⟨-, rfl⟩ :=
        Prod.mk.inj (Option.some.inj ((cutCrlf_line hno.noCrlf _).symm.trans hcut))
      intro w hmem
      rcases List.mem_cons.mp hmem with hw | hw
      · exact Option.some.inj hw ▸ hno
      · exact ih hvs htail w hw

/-! ## The replies that carry no data -/

theorem encodes_wrongNumberOfArguments (command : String) (h : OneLine (ofString command)) :
    ∃ text, Encodes (wrongNumberOfArguments command).response (.error text) :=
  ⟨_, encodes_errors ((OneLine.append (by decide) h).append (by decide))⟩

theorem encodes_internalError : ∃ text, Encodes internalError.response (.error text) :=
  ⟨_, encodes_errors (by decide)⟩

theorem encodes_statusReply {command : String} (h : OneLine (ofString command))
    (status : TreeStatus) : ∃ v, Encodes (statusReply command status).response v := by
  have hfail : ∀ before : Bytes, OneLine before →
      OneLine (before ++ ofString command ++ ofString "' command") :=
    fun _ hb => (hb.append h).append (by decide)
  cases status with
  | ok => exact ⟨_, encodes_simpleStrings (by decide)⟩
  | invalidArgument => exact ⟨_, encodes_errors (hfail _ (by decide))⟩
  | other => exact ⟨_, encodes_errors (hfail _ (by decide))⟩

/-! ## Handlers with one call -/

variable {request : List Bytes} {calls : List (Event TreeResult)} {res : EncodeResult}

/-- **A handler with one call replies with a value**, and if it makes the call
the value is the one for what that returns. -/
theorem exists_value_of_guarded {P : Prop} [Decidable P] {err : EncodeResult}
    {c : ¬ P → TreeCall} {f : (h : ¬ P) → (c h).Value → EncodeResult}
    {g : (h : ¬ P) → (c h).Value → RespValue}
    (hrun : Exec (catchException (if h : P then pure err
      else callTree (c h) >>= fun v => pure (f h v))) calls res)
    (herr : ∃ text, Encodes err.response (.error text))
    (hf : ∀ h x, Encodes (f h x).response (g h x)) :
    ∃ v, Encodes res.response v
      ∧ ∀ h, ∃ r : TreeResult (c h), calls = [⟨c h, r⟩] ∧ GivesOrError (g h) r v := by
  rcases exec_guarded_iff.mp hrun with ⟨hP, -, rfl⟩ | ⟨h, r, rfl, rfl⟩
  · obtain ⟨text, htext⟩ := herr
    exact ⟨_, htext, fun h => absurd hP h⟩
  · cases r with
    | ok x => exact ⟨_, hf h x, fun _ => ⟨.ok x, rfl, rfl⟩⟩
    | error e =>
      obtain ⟨text, htext⟩ := encodes_internalError
      exact ⟨_, htext, fun _ => ⟨.error e, rfl, text, rfl⟩⟩

/-- The same for a handler that answers a failed lookup with nil. -/
theorem exists_value_of_guardedLookup {P : Prop} [Decidable P] {err : EncodeResult}
    {c : ¬ P → TreeCall} {f : (h : ¬ P) → (c h).Value → EncodeResult}
    {g : (h : ¬ P) → (c h).Value → RespValue}
    (hrun : Exec (catchException (catchLookupException nilReply (if h : P then pure err
      else callTree (c h) >>= fun v => pure (f h v)))) calls res)
    (herr : ∃ text, Encodes err.response (.error text))
    (hf : ∀ h x, Encodes (f h x).response (g h x)) :
    ∃ v, Encodes res.response v
      ∧ ∀ h, ∃ r : TreeResult (c h), calls = [⟨c h, r⟩] ∧ GivesOrNil (g h) r v := by
  rcases exec_guardedLookup_iff.mp hrun with ⟨hP, -, rfl⟩ | ⟨h, r, rfl, rfl⟩
  · obtain ⟨text, htext⟩ := herr
    exact ⟨_, htext, fun h => absurd hP h⟩
  · rcases r with (_ | _) | x
    · exact ⟨_, encodes_nilReply, fun _ => ⟨.error .lookup, rfl, rfl⟩⟩
    · obtain ⟨text, htext⟩ := encodes_internalError
      exact ⟨_, htext, fun _ => ⟨.error .other, rfl, text, rfl⟩⟩
    · exact ⟨_, hf h x, fun _ => ⟨.ok x, rfl, rfl⟩⟩

/-- A handler whose reply carries no data. -/
theorem exists_encodes_of_guarded {P : Prop} [Decidable P] {err : EncodeResult}
    {c : ¬ P → TreeCall} {f : (h : ¬ P) → (c h).Value → EncodeResult}
    (hrun : Exec (catchException (if h : P then pure err
      else callTree (c h) >>= fun v => pure (f h v))) calls res)
    (herr : ∃ text, Encodes err.response (.error text))
    (hf : ∀ h x, ∃ v, Encodes (f h x).response v) : ∃ v, Encodes res.response v := by
  choose g hg using hf
  obtain ⟨v, hv, -⟩ := exists_value_of_guarded hrun herr hg
  exact ⟨v, hv⟩

/-- A push handler replies with a value. -/
theorem exists_encodes_of_push {command : String} {push : Bytes → Bytes → Handling Unit}
    (hc : OneLine (ofString command))
    (hrun : Exec (handlePushRequest command push request) calls res) :
    ∃ v, Encodes res.response v := by
  rcases exec_guardedThen_iff.mp hrun with ⟨-, -, rfl⟩ | ⟨_, out, -, rfl⟩
  · obtain ⟨text, htext⟩ := encodes_wrongNumberOfArguments command hc
    exact ⟨_, htext⟩
  · cases out with
    | ok _ => exact ⟨_, encodes_integers _⟩
    | error _ =>
      obtain ⟨text, htext⟩ := encodes_internalError
      exact ⟨_, htext⟩

/-! ## The replies that carry data -/

/-- Commands that carry no data have nothing to say. -/
theorem Answers.of_ne (hget : commandOf request ≠ ofString "GET")
    (hsmembers : commandOf request ≠ ofString "SMEMBERS")
    (hlrange : commandOf request ≠ ofString "LRANGE")
    (hmget : commandOf request ≠ ofString "MGET") (v : RespValue) : Answers request calls v :=
  ⟨fun h => absurd h hget, fun h => absurd h hsmembers, fun h => absurd h hlrange,
    fun h => absurd h hmget⟩

/-- A request is its command name and the other elements. -/
theorem eq_cons_of_tail {args : List Bytes} (h : request.tail = args) (hne : args ≠ []) :
    ∃ name, request = name :: args := by
  cases request with
  | nil => exact absurd h.symm hne
  | cons name rest => exact ⟨name, congrArg (name :: ·) h⟩

theorem exists_answers_get (hc : commandOf request = ofString "GET")
    (hrun : Exec (handleGetRequest request) calls res) :
    ∃ v, Encodes res.response v ∧ Answers request calls v := by
  obtain ⟨v, hv, hcall⟩ := exists_value_of_guardedLookup hrun
    (encodes_wrongNumberOfArguments "read" (by decide)) (fun _ => encodes_bulkStrings)
  refine ⟨v, hv, ?_, fun h => ?_, fun h => ?_, fun h => ?_⟩
  · intro _ key htail
    obtain ⟨name, rfl⟩ := eq_cons_of_tail htail (List.cons_ne_nil _ _)
    exact hcall (fun h => h rfl)
  all_goals exact absurd (hc.symm.trans h) (by decide)

theorem exists_answers_smembers (hc : commandOf request = ofString "SMEMBERS")
    (hrun : Exec (handleSmembersRequest request) calls res) :
    ∃ v, Encodes res.response v ∧ Answers request calls v := by
  obtain ⟨v, hv, hcall⟩ := exists_value_of_guarded hrun
    (encodes_wrongNumberOfArguments "smembers" (by decide)) (fun _ => encodes_arrays)
  refine ⟨v, hv, fun h => ?_, ?_, fun h => ?_, fun h => ?_⟩
  case refine_2 =>
    intro _ key htail
    obtain ⟨name, rfl⟩ := eq_cons_of_tail htail (List.cons_ne_nil _ _)
    exact hcall (fun h => h rfl)
  all_goals exact absurd (hc.symm.trans h) (by decide)

theorem exists_answers_lrange (hc : commandOf request = ofString "LRANGE")
    (hrun : Exec (handleLrangeRequest request) calls res) :
    ∃ v, Encodes res.response v ∧ Answers request calls v := by
  obtain ⟨v, hv, hcall⟩ := exists_value_of_guardedLookup hrun
    (encodes_wrongNumberOfArguments "lrange" (by decide)) (fun _ => encodes_arrays)
  refine ⟨v, hv, fun h => ?_, fun h => ?_, ?_, fun h => ?_⟩
  case refine_3 =>
    intro _ key start stop htail
    obtain ⟨name, rfl⟩ := eq_cons_of_tail htail (List.cons_ne_nil _ _)
    exact hcall (fun h => h rfl)
  all_goals exact absurd (hc.symm.trans h) (by decide)

/-! ## `MGET` -/

theorem readEvent_ne_failedRead (key k : Bytes) (found : Option Bytes) :
    readEvent key found ≠ failedRead k := by
  intro h
  cases found with
  | none =>
    obtain ⟨hk, hr⟩ := Sigma.mk.inj h
    obtain rfl := TreeCall.readEx.inj hk
    exact nomatch eq_of_heq hr
  | some value =>
    obtain ⟨hk, hr⟩ := Sigma.mk.inj h
    obtain rfl := TreeCall.readEx.inj hk
    exact nomatch eq_of_heq hr

/-- Among reads that found something or nothing, none has failed. -/
theorem failedRead_notMem {keys : List Bytes} {found : List (Option Bytes)} {key : Bytes} :
    failedRead key ∉ List.zipWith readEvent keys found := by
  induction keys generalizing found with
  | nil => simp
  | cons k keys ih =>
    cases found with
    | nil => simp
    | cons one found =>
      rw [List.zipWith_cons_cons, List.mem_cons, not_or]
      exact ⟨(readEvent_ne_failedRead k key one).symm, ih⟩

theorem readEvent_injective (key : Bytes) : Function.Injective (readEvent key) := by
  intro a b h
  cases a with
  | none =>
    cases b with
    | none => rfl
    | some y => exact nomatch eq_of_heq (Sigma.mk.inj h).2
  | some x =>
    cases b with
    | none => exact nomatch eq_of_heq (Sigma.mk.inj h).2
    | some y => exact congrArg some (Except.ok.inj (eq_of_heq (Sigma.mk.inj h).2))

/-- The reads determine what was found. -/
theorem eq_of_zipWith_readEvent {keys : List Bytes} {found found' : List (Option Bytes)}
    (hlen : found.length = keys.length) (hlen' : found'.length = keys.length)
    (h : List.zipWith readEvent keys found = List.zipWith readEvent keys found') :
    found = found' := by
  induction keys generalizing found found' with
  | nil => rw [List.length_eq_zero_iff.mp hlen, List.length_eq_zero_iff.mp hlen']
  | cons key keys ih =>
    obtain ⟨one, found, rfl⟩ := List.exists_cons_of_length_eq_add_one hlen
    obtain ⟨one', found', rfl⟩ := List.exists_cons_of_length_eq_add_one hlen'
    rw [List.zipWith_cons_cons, List.zipWith_cons_cons] at h
    obtain ⟨h₁, h₂⟩ := List.cons_eq_cons.mp h
    rw [readEvent_injective key h₁, ih (Nat.succ.inj hlen) (Nat.succ.inj hlen') h₂]

/-- **What `MGET` writes reads as what was found**, exactly if no value found
holds a CR or an LF. -/
theorem encodes_encodeList_iff {found : List (Option Bytes)} :
    (∃ v, Encodes (encodeList (found.map pairOf)).response v ∧ elements v = some found)
      ↔ ∀ value, some value ∈ found → OneLine value := by
  have hread : ∀ t, ∃ depth, readReply ((encodeList (found.map pairOf)).response ++ t)
      = (readMany (readValue (depth + 1)) found.length
          (((found.map pairOf).map encodePair).flatten ++ t)).map
        (fun p => (.array p.1, p.2)) := by
    intro t
    have htext : (encodeList (found.map pairOf)).response ++ t
        = ofString "*" ++ decimal found.length ++ crlf
          ++ (((found.map pairOf).map encodePair).flatten ++ t) := by
      show ofString "*" ++ decimal (found.map pairOf).length ++ crlf ++ _ ++ t = _
      rw [List.length_map, List.append_assoc]
    refine ⟨(decimal found.length ++ crlf
      ++ (((found.map pairOf).map encodePair).flatten ++ t)).length, ?_⟩
    rw [htext, ← readValue_array]
    rfl
  constructor
  · rintro ⟨v, hv, hel⟩
    obtain ⟨depth, hr⟩ := hread []
    rw [hv []] at hr
    obtain ⟨⟨vs, rest⟩, hmany, heq⟩ := Option.map_eq_some_iff.mp hr.symm
    obtain ⟨rfl, rfl⟩ := Prod.mk.inj heq
    exact oneLine_of_readMany_pairs hmany hel
  · intro h
    refine ⟨.array (found.map statusOf), fun t => ?_, mapM_text_statusOf found⟩
    obtain ⟨depth, hr⟩ := hread t
    rw [hr, readMany_pairs depth h t]
    rfl

/-- **The reply to `MGET`** says what it has to, exactly if no value it read
holds a CR or an LF. -/
theorem exists_answers_mget_iff (hc : commandOf request = ofString "MGET")
    (hrun : Exec (handleMgetRequest request) calls res) :
    (∃ v, Encodes res.response v ∧ Answers request calls v) ↔ ¬ LineBreakInMget request calls := by
  have hanswers : ∀ v, Answers request calls v ↔ (request.tail ≠ [] →
      (∃ found : List (Option Bytes), found.length = request.tail.length
        ∧ calls = List.zipWith readEvent request.tail found ∧ elements v = some found)
      ∨ (∃ key, failedRead key ∈ calls) ∧ IsError v) := fun v =>
    ⟨fun h => h.mget hc, fun h => ⟨fun hg => absurd (hc.symm.trans hg) (by decide),
      fun hs => absurd (hc.symm.trans hs) (by decide),
      fun hl => absurd (hc.symm.trans hl) (by decide), fun _ => h⟩⟩
  rcases mget_cases hrun with ⟨hlen, -, rfl⟩ | ⟨name, keys, rfl, htail, ⟨found, hflen, rfl, rfl⟩
    | ⟨done, key, rest, found, -, -, rfl, rfl⟩⟩
  · -- too few arguments
    have htail : request.tail = [] := by
      rw [← List.length_eq_zero_iff, List.length_tail]
      omega
    obtain ⟨text, htext⟩ := encodes_wrongNumberOfArguments "smembers" (by decide)
    exact ⟨fun _ hbreak => hbreak.2.1 htail,
      fun _ => ⟨_, htext, (hanswers _).mpr fun hne => absurd htail hne⟩⟩
  · -- all keys have been read
    have hiff : ∀ v, Answers (name :: keys) (List.zipWith readEvent keys found) v
        ↔ elements v = some found := by
      intro v
      rw [hanswers v]
      refine ⟨fun hv => ?_, fun hv _ => Or.inl ⟨found, hflen, rfl, hv⟩⟩
      rcases hv htail with ⟨found', hlen', hcalls, hel⟩ | ⟨⟨key, hkey⟩, -⟩
      · rw [hel, eq_of_zipWith_readEvent hflen hlen' hcalls]
      · exact absurd hkey failedRead_notMem
    simp only [hiff]
    rw [encodes_encodeList_iff]
    constructor
    · rintro hno ⟨-, -, found', hlen', hcalls, value, hmem, hbreak⟩
      rw [← eq_of_zipWith_readEvent hflen hlen' hcalls] at hmem
      exact hbreak (hno value hmem)
    · intro hno value hmem
      by_contra hbreak
      exact hno ⟨hc, htail, found, hflen, rfl, value, hmem, hbreak⟩
  · -- a read has failed
    have hfailed : failedRead key ∈ List.zipWith readEvent done found ++ [failedRead key] :=
      List.mem_append_right _ (List.mem_singleton_self _)
    obtain ⟨text, htext⟩ := encodes_internalError
    refine ⟨fun _ hbreak => ?_,
      fun _ => ⟨_, htext, (hanswers _).mpr fun _ => Or.inr ⟨⟨key, hfailed⟩, text, rfl⟩⟩⟩
    obtain ⟨-, -, found', -, hcalls, -⟩ := hbreak
    exact failedRead_notMem (hcalls ▸ hfailed)

/-! ## The worker -/

/-- The reply to a write that succeeds. -/
theorem encodes_one : ∃ v, Encodes (encode .integers [ofString "1"]).response v :=
  ⟨_, encodes_integers _⟩

theorem exists_encodes_sadd (hrun : Exec (handleSaddRequest request) calls res) :
    ∃ v, Encodes res.response v :=
  exists_encodes_of_guarded hrun (encodes_wrongNumberOfArguments "sadd" (by decide))
    fun _ _ => encodes_one

theorem exists_encodes_srem (hrun : Exec (handleSremRequest request) calls res) :
    ∃ v, Encodes res.response v :=
  exists_encodes_of_guarded hrun (encodes_wrongNumberOfArguments "srem" (by decide))
    fun _ _ => encodes_one

theorem exists_encodes_set (hrun : Exec (handleSetRequest request) calls res) :
    ∃ v, Encodes res.response v :=
  exists_encodes_of_guarded hrun (encodes_wrongNumberOfArguments "set" (by decide))
    fun _ _ => ⟨_, encodes_simpleStrings (by decide)⟩

theorem exists_encodes_ltrim (hrun : Exec (handleLtrimRequest request) calls res) :
    ∃ v, Encodes res.response v :=
  exists_encodes_of_guarded hrun (encodes_wrongNumberOfArguments "ltrim" (by decide))
    fun _ status => encodes_statusReply (by decide) status

theorem exists_encodes_expire (hrun : Exec (handleExpireRequest request) calls res) :
    ∃ v, Encodes res.response v :=
  exists_encodes_of_guarded hrun (encodes_wrongNumberOfArguments "expire" (by decide))
    fun _ status => encodes_statusReply (by decide) status

theorem exists_encodes_scard (hrun : Exec (handleScardRequest request) calls res) :
    ∃ v, Encodes res.response v := by
  obtain ⟨v, hv, -⟩ := exists_value_of_guardedLookup hrun
    (encodes_wrongNumberOfArguments "read" (by decide)) fun _ => encodes_integers
  exact ⟨v, hv⟩

theorem exists_encodes_lpush (hrun : Exec (handleLpushRequest request) calls res) :
    ∃ v, Encodes res.response v := exists_encodes_of_push (by decide) hrun

theorem exists_encodes_rpush (hrun : Exec (handleRpushRequest request) calls res) :
    ∃ v, Encodes res.response v := exists_encodes_of_push (by decide) hrun

/-- A command that is none of those that carry data. -/
theorem exists_answers_of_encodes {name : Bytes} (hc : commandOf request = name)
    (hget : name ≠ ofString "GET") (hsmembers : name ≠ ofString "SMEMBERS")
    (hlrange : name ≠ ofString "LRANGE") (hmget : name ≠ ofString "MGET")
    (h : ∃ v, Encodes res.response v) : ∃ v, Encodes res.response v ∧ Answers request calls v := by
  obtain ⟨v, hv⟩ := h
  subst hc
  exact ⟨v, hv, Answers.of_ne hget hsmembers hlrange hmget v⟩

/-- **Every other command** is answered with a value that says what it has
to. -/
theorem exists_answers_of_ne_mget (hc : commandOf request ≠ ofString "MGET")
    (hrun : Exec (handle (commandOf request) request) calls res) :
    ∃ v, Encodes res.response v ∧ Answers request calls v := by
  have hd := dispatch_handle (commandOf request)
  generalize hname : commandOf request = name at hd hc hrun
  generalize handle name = handler at hd hrun
  have hplain := @exists_answers_of_encodes request calls res name hname
  cases hd with
  | rpush =>
    exact hplain (by decide) (by decide) (by decide) (by decide) (exists_encodes_rpush hrun)
  | sadd => exact hplain (by decide) (by decide) (by decide) (by decide) (exists_encodes_sadd hrun)
  | srem => exact hplain (by decide) (by decide) (by decide) (by decide) (exists_encodes_srem hrun)
  | mget => exact absurd rfl hc
  | smembers => exact exists_answers_smembers hname hrun
  | scard =>
    exact hplain (by decide) (by decide) (by decide) (by decide) (exists_encodes_scard hrun)
  | lpush =>
    exact hplain (by decide) (by decide) (by decide) (by decide) (exists_encodes_lpush hrun)
  | lrange => exact exists_answers_lrange hname hrun
  | ltrim =>
    exact hplain (by decide) (by decide) (by decide) (by decide) (exists_encodes_ltrim hrun)
  | expire =>
    exact hplain (by decide) (by decide) (by decide) (by decide) (exists_encodes_expire hrun)
  | set => exact hplain (by decide) (by decide) (by decide) (by decide) (exists_encodes_set hrun)
  | get => exact exists_answers_get hname hrun
  | unknown hget hmget hsmembers hlrange =>
    obtain ⟨-, rfl⟩ := exec_pure_iff.mp hrun
    exact hplain hget hsmembers hlrange hmget ⟨_, encodes_errors (by decide)⟩

/-- **A run of the worker** is a run of the handler, then one call of
`send_reply`. -/
theorem exec_processerWorker_iff {commandId sessionId : Int32}
    {tr : List (Event WorkerResult)} :
    Exec (processerWorker commandId request sessionId) tr ()
      ↔ ∃ calls res, Exec (handle (commandOf request) request) calls res
        ∧ tr = calls.map Event.inl ++ [⟨Sum.inr ⟨commandId, sessionId, res.response⟩, ()⟩] := by
  unfold processerWorker
  rw [exec_bind_iff]
  constructor
  · rintro ⟨tr₁, res, tr₂, h₁, h₂, rfl⟩
    obtain ⟨calls, h, rfl⟩ := exec_inl_iff.mp h₁
    exact ⟨calls, res, h, by rw [exec_lift_iff.mp h₂]⟩
  · rintro ⟨calls, res, h, rfl⟩
    exact ⟨_, res, _, exec_inl_iff.mpr ⟨calls, h, rfl⟩, exec_lift_iff.mpr rfl, rfl⟩

/-- **Every reply is exactly one RESP value with the right data, unless a value
read for `MGET` holds a CR or an LF.** -/
theorem reply_iff {commandId sessionId : Int32} {request : List Bytes}
    {tr : List (Event WorkerResult)}
    (hrun : Exec (processerWorker commandId request sessionId) tr ()) :
    ∃ calls response,
      tr = calls.map Event.inl ++ [⟨Sum.inr ⟨commandId, sessionId, response⟩, ()⟩]
      ∧ ((∃ v, Encodes response v ∧ Answers request calls v) ↔ ¬ LineBreakInMget request calls) := by
  obtain ⟨calls, res, h, rfl⟩ := exec_processerWorker_iff.mp hrun
  refine ⟨calls, res.response, rfl, ?_⟩
  by_cases hc : commandOf request = ofString "MGET"
  · rw [hc] at h
    exact exists_answers_mget_iff hc h
  · exact ⟨fun _ hbreak => hc hbreak.1, fun _ => exists_answers_of_ne_mget hc h⟩

/-- `GET` of a value that looks like a reply. -/
theorem reply_iff_get :
    ∃ calls response,
      ([⟨.inl (.readEx (ofString "k")), .ok (ofString "a\r\n+b")⟩,
        ⟨.inr ⟨5, 3, ofString "$5\r\na\r\n+b\r\n"⟩, ()⟩] : List (Event WorkerResult))
        = calls.map Event.inl ++ [⟨Sum.inr ⟨5, 3, response⟩, ()⟩]
      ∧ ((∃ v, Encodes response v ∧ Answers [ofString "get", ofString "k"] calls v)
        ↔ ¬ LineBreakInMget [ofString "get", ofString "k"] calls) :=
  reply_iff (exec_processerWorker_iff.mpr ⟨[⟨.readEx (ofString "k"), .ok (ofString "a\r\n+b")⟩],
    encode .bulkStrings [ofString "a\r\n+b"],
    exec_guardedLookup_iff.mpr (Or.inr ⟨by decide, .ok (ofString "a\r\n+b"), rfl, rfl⟩), rfl⟩)

/-- A stored CRLF takes the reply to `MGET` apart. -/
theorem not_answers_mgetCrlf :
    ∃ tr response, Exec (processerWorker 5 [ofString "MGET", ofString "k"] 3) tr ()
      ∧ tr = [⟨.inl (.readEx (ofString "k")), .ok (ofString "a\r\nb")⟩,
        ⟨.inr ⟨5, 3, response⟩, ()⟩]
      ∧ readReply response = some (.array [.simple (ofString "a")], ofString "b\r\n")
      ∧ ¬ ∃ v, Encodes response v := by
  refine ⟨_, (encodeList [⟨.simpleStrings, ofString "a\r\nb"⟩]).response,
    exec_processerWorker_iff.mpr ⟨[⟨.readEx (ofString "k"), .ok (ofString "a\r\nb")⟩], _,
      ?_, rfl⟩, rfl, rfl, ?_⟩
  · exact exec_catchException_iff.mpr ⟨_, exec_guard_iff.mpr (Or.inr ⟨by decide,
      exec_bindE_iff.mpr (Or.inr ⟨_, _, [], exec_mgetPairs_iff.mpr (Or.inl
        ⟨[some (ofString "a\r\nb")], rfl, rfl, rfl⟩), exec_pureE_iff.mpr ⟨rfl, rfl⟩, rfl⟩)⟩), rfl⟩
  · rintro ⟨v, hv⟩
    -- the reader leaves the end of the value behind
    have hrest : some (RespValue.array [.simple (ofString "a")], ofString "b\r\n")
        = some (v, []) := hv []
    exact absurd (Prod.mk.inj (Option.some.inj hrest)).2 (by decide)

end LogcabinRedisProxy
