import RedisProxy.SimpleResp
import RedisProxy.Library.Prog

/-!
# The request handlers

`processer_worker` takes a request off the pool, has the handler of its
command answer it, and hands the encoded reply to `send_reply`. The handlers
check the number of arguments, make their calls on a `Tree` of the cluster and
encode what comes back; what they do not catch themselves is answered with an
internal error.

The `Tree` is the cluster's client library and not part of the repository. A
handler is therefore a program that calls it (`Prog TreeResult`), and what the
calls return or throw is open. Which of the ten trees of `getTree` takes a
call makes no difference to the caller – they are connections to one cluster –
so a call names only what is asked.
-/

namespace LogcabinRedisProxy

open Bytes SimpleResp

/-! ## The cluster's client -/

/-- `LogCabin::Client::Exception`, as the handlers tell them apart. -/
inductive TreeException where
  /-- `LookupException`. -/
  | lookup
  /-- Any other. -/
  | other
  deriving DecidableEq, Repr

/-- `LogCabin::Client::Status`, as the handlers tell them apart. -/
inductive TreeStatus where
  | ok
  | invalidArgument
  /-- Any other. -/
  | other
  deriving DecidableEq, Repr

/-- **A call on a `Tree`**, with its arguments. -/
inductive TreeCall where
  | saddEx (key : Bytes) (args : List Bytes)
  | sremEx (key arg : Bytes)
  | lpushEx (key element : Bytes)
  | rpushEx (key element : Bytes)
  | writeEx (key value : Bytes)
  | readEx (key : Bytes)
  | scard (key : Bytes)
  | smembers (key : Bytes)
  | lrange (key range : Bytes)
  | ltrim (key range : Bytes)
  | expire (key : Bytes) (seconds : Int32)
  deriving DecidableEq

/-- What a call returns. -/
def TreeCall.Value : TreeCall → Type
  | readEx _ => Bytes
  | scard _ => Bytes
  | smembers _ => List Bytes
  | lrange _ _ => List Bytes
  | ltrim _ _ => TreeStatus
  | expire _ _ => TreeStatus
  | _ => Unit

/-- What a call returns or throws. -/
abbrev TreeResult (c : TreeCall) : Type := Except TreeException c.Value

/-- The body of a handler's `try` block. -/
abbrev Handling (α : Type) : Type := ExceptT TreeException (Prog TreeResult) α

/-- A handler. -/
abbrev Handler : Type := List Bytes → Prog TreeResult EncodeResult

/-- The call `getTree()->…` of a handler. -/
def callTree (c : TreeCall) : Handling c.Value := ExceptT.mk (Prog.lift c)

/-! ## Replies and exceptions the handlers share -/

/-- The reply to a request with a wrong number of arguments. -/
def wrongNumberOfArguments (command : String) : EncodeResult :=
  encode .errors
    [ofString "ERR wrong number of arguments for '" ++ ofString command ++ ofString "' command"]

/-- The reply where the cluster fails. -/
def internalError : EncodeResult := encode .errors [ofString "ERR Internal error happened"]

/-- The reply where there is nothing. -/
def nilReply : EncodeResult := encode .bulkNil [[]]

/-- `catch (const LogCabin::Client::Exception& e)`. -/
def catchException (body : Handling EncodeResult) : Prog TreeResult EncodeResult :=
  body.run >>= fun
    | .ok result => pure result
    | .error _ => pure internalError

/-- `catch (const LogCabin::Client::LookupException& e)`. -/
def catchLookupException {α : Type} (value : α) (body : Handling α) : Handling α :=
  ExceptT.mk (body.run >>= fun
    | .error .lookup => pure (.ok value)
    | out => pure out)

/-- The reply to a call that returns a status. -/
def statusReply (command : String) : TreeStatus → EncodeResult
  | .ok => encode .simpleStrings [ofString "OK"]
  | .invalidArgument =>
    encode .errors
      [ofString "ERR invalid arguments for '" ++ ofString command ++ ofString "' command"]
  | .other =>
    encode .errors
      [ofString "ERR unknown error for '" ++ ofString command ++ ofString "' command"]

/-! ## The handlers -/

/-- `handler::handle_sadd_request`. -/
def handleSaddRequest : Handler := fun redisArgs =>
  catchException do
    if h : redisArgs.length < 3 then
      return wrongNumberOfArguments "sadd"
    else
      let key := redisArgs[1]
      let args := redisArgs.drop 2
      callTree (.saddEx key args)
      return encode .integers [ofString "1"]

/-- `handler::handle_srem_request`. -/
def handleSremRequest : Handler := fun redisArgs =>
  catchException do
    if h : redisArgs.length ≠ 3 then
      return wrongNumberOfArguments "srem"
    else
      let key := redisArgs[1]
      callTree (.sremEx key redisArgs[2])
      return encode .integers [ofString "1"]

/-- The loop of the two push handlers: one call for each element. -/
def pushElements (push : Bytes → Handling Unit) : List Bytes → Handling Unit
  | [] => pure ()
  | it :: rest => push it >>= fun _ => pushElements push rest

/-- The push handlers, which differ in the call and the name of the command. -/
def handlePushRequest (command : String) (push : Bytes → Bytes → Handling Unit) : Handler :=
  fun redisArgs =>
    catchException do
      if h : redisArgs.length < 3 then
        return wrongNumberOfArguments command
      else
        let key := redisArgs[1]
        pushElements (push key) (redisArgs.drop 2)
        return encode .integers [ofString "1"]

/-- `handler::handle_lpush_request`. -/
def handleLpushRequest : Handler :=
  handlePushRequest "lpush" (fun key it => callTree (.lpushEx key it))

/-- `handler::handle_rpush_request`. -/
def handleRpushRequest : Handler :=
  handlePushRequest "rpush" (fun key it => callTree (.rpushEx key it))

/-- `handler::handle_set_request`, which looks at two arguments of however
many there are. -/
def handleSetRequest : Handler := fun redisArgs =>
  catchException do
    if h : redisArgs.length < 3 then
      return wrongNumberOfArguments "set"
    else
      let key := redisArgs[1]
      callTree (.writeEx key redisArgs[2])
      return encode .simpleStrings [ofString "OK"]

/-- `handler::handle_scard_request`. -/
def handleScardRequest : Handler := fun redisArgs =>
  catchException <| catchLookupException nilReply do
    if h : redisArgs.length ≠ 2 then
      return wrongNumberOfArguments "read"
    else
      let result ← callTree (.scard redisArgs[1])
      return encode .integers [result]

/-- `handler::handle_get_request`. -/
def handleGetRequest : Handler := fun redisArgs =>
  catchException <| catchLookupException nilReply do
    if h : redisArgs.length ≠ 2 then
      return wrongNumberOfArguments "read"
    else
      let result ← callTree (.readEx redisArgs[1])
      return encode .bulkStrings [result]

/-- What `handle_mget_request` collects for one key. -/
def mgetPair (key : Bytes) : Handling RedisTypeValuePair :=
  catchLookupException ⟨.bulkNil, []⟩ do
    let oneResult ← callTree (.readEx key)
    return ⟨.simpleStrings, oneResult⟩

/-- The loop of `handle_mget_request`. -/
def mgetPairs : List Bytes → Handling (List RedisTypeValuePair)
  | [] => pure []
  | key :: keys => mgetPair key >>= fun pair => (pair :: ·) <$> mgetPairs keys

/-- `handler::handle_mget_request`. -/
def handleMgetRequest : Handler := fun redisArgs =>
  catchException do
    if _h : redisArgs.length < 2 then
      return wrongNumberOfArguments "smembers"
    else
      let result ← mgetPairs (redisArgs.drop 1)
      return encodeList result

/-- `handler::handle_smembers_request`. -/
def handleSmembersRequest : Handler := fun redisArgs =>
  catchException do
    if h : redisArgs.length ≠ 2 then
      return wrongNumberOfArguments "smembers"
    else
      let result ← callTree (.smembers redisArgs[1])
      return encode .arrays result

/-- `handler::handle_lrange_request`. -/
def handleLrangeRequest : Handler := fun redisArgs =>
  catchException <| catchLookupException nilReply do
    if h : redisArgs.length ≠ 4 then
      return wrongNumberOfArguments "lrange"
    else
      let result ← callTree (.lrange redisArgs[1] (redisArgs[2] ++ ofString " " ++ redisArgs[3]))
      return encode .arrays result

/-- `handler::handle_ltrim_request`. -/
def handleLtrimRequest : Handler := fun redisArgs =>
  catchException do
    if h : redisArgs.length ≠ 4 then
      return wrongNumberOfArguments "ltrim"
    else
      let result ← callTree (.ltrim redisArgs[1] (redisArgs[2] ++ ofString " " ++ redisArgs[3]))
      return statusReply "ltrim" result

/-- `handler::handle_expire_request`. -/
def handleExpireRequest : Handler := fun redisArgs =>
  catchException do
    if h : redisArgs.length ≠ 3 then
      return wrongNumberOfArguments "expire"
    else
      let result ← callTree (.expire redisArgs[1] (atoi redisArgs[2]))
      return statusReply "expire" result

/-! ## The worker -/

/-- `to_uppercase`. -/
def toUppercase (s : Bytes) : Bytes :=
  s.map (fun i => if 97 ≤ i ∧ i ≤ 122 then i - (97 - 65) else i)

/-- The `if` chain of `processer_worker`, over the command name in capitals. -/
def handle (command : Bytes) : Handler :=
  if command = ofString "RPUSH" then handleRpushRequest
  else if command = ofString "SADD" then handleSaddRequest
  else if command = ofString "SREM" then handleSremRequest
  else if command = ofString "MGET" then handleMgetRequest
  else if command = ofString "SMEMBERS" then handleSmembersRequest
  else if command = ofString "SCARD" then handleScardRequest
  else if command = ofString "LPUSH" then handleLpushRequest
  else if command = ofString "LRANGE" then handleLrangeRequest
  else if command = ofString "LTRIM" then handleLtrimRequest
  else if command = ofString "EXPIRE" then handleExpireRequest
  else if command = ofString "SET" then handleSetRequest
  else if command = ofString "GET" then handleGetRequest
  else fun _ => pure (encode .errors [ofString "ERR unknown command"])

/-- The command name of a request, in capitals. -/
def commandOf (request : List Bytes) : Bytes := toUppercase (request.headD [])

/-- What `send_reply` is called with. -/
structure SendReply where
  /-- The number of the request on its connection. -/
  commandId : Int32
  /-- The connection. -/
  sessionId : Int32
  /-- The encoded reply. -/
  response : Bytes
  deriving DecidableEq

/-- What `processer_worker` calls: the cluster, and `send_reply`. -/
abbrev WorkerResult : TreeCall ⊕ SendReply → Type := Sum.elim TreeResult (fun _ => Unit)

/-- `send_reply`, which enqueues a `sender_worker`. -/
def sendReply (commandId sessionId : Int32) (response : Bytes) : Prog WorkerResult Unit :=
  Prog.lift (Sum.inr ⟨commandId, sessionId, response⟩)

/-- `processer_worker`. A dispatched request has a first element. -/
def processerWorker (commandId : Int32) (request : List Bytes) (sessionId : Int32) :
    Prog WorkerResult Unit := do
  let encodeResult ← (handle (commandOf request) request).inl
  sendReply commandId sessionId encodeResult.response

end LogcabinRedisProxy
