import RedisProxy.Library.Numerals
import RedisProxy.Library.Traced
import Mathlib.Data.UInt

/-!
# The RESP codec of the proxy

`simple_resp` decodes the requests that arrive on a connection and encodes the
replies. This module is the codec as the source has it.

The decoder keeps a `DecodeContext` per connection. `parse` scans the buffered
input for CRLF and handles each token it finds in one of three states: the
array header (`init`), an element marker (`parseElements`) or the payload of a
bulk string (`parseBlukStrings`). A request is complete in `pushElement`, which
calls the handler; the calls are the events of the computation, and the
exceptions of `std::string::substr` and `std::stoi` end it.

Sizes are the 64-bit `size_t` of the source, so a negative `int` read from the
wire becomes a huge count (`UInt64.ofInt`), and command ids are 32-bit `int`s.
So are the positions `i` and `token_start` of `parse`: from `2^31` bytes on they
overflow, which C++ leaves undefined and which here, as in the machine code,
wraps around.

The encoder writes the five reply encodings, through two overloads.
-/

namespace SimpleResp

open Bytes

/-- `RESP_TYPE`. -/
inductive RespType where
  | simpleStrings
  | errors
  | integers
  | bulkStrings
  | bulkNil
  | arrays
  deriving DecidableEq, Repr

/-- The character an enumerator of `RESP_TYPE` stands for; `BULK_NIL` is the
one after `BULK_STRINGS`. -/
def RespType.code : RespType → UInt8
  | .simpleStrings => 43
  | .errors => 45
  | .integers => 58
  | .bulkStrings => 36
  | .bulkNil => 37
  | .arrays => 42

/-- `STATUS`, of which the encoder sets no other value. -/
inductive Status where
  | ok
  deriving DecidableEq, Repr

/-- `PARSE_STATE`. -/
inductive ParseState where
  | init
  | parseElements
  | parseBlukStrings
  deriving DecidableEq, Repr

/-- One call of the request handler: the command id and the request. -/
structure HandlerCall where
  /-- The number of the request on its connection. -/
  commandId : Int32
  /-- The elements of the request, command name first. -/
  request : List Bytes
  deriving DecidableEq

/-- `decode_context`: what the decoder keeps of one connection. -/
structure DecodeContext where
  /-- `session_id`. -/
  sessionId : Int32
  /-- `last_command_id`: the id the next request gets. -/
  lastCommandId : Int32
  /-- `state`. -/
  state : ParseState
  /-- `reading_list_size`: how many elements the open request announced. -/
  readingListSize : UInt64
  /-- `reading_str_size`: the length the open bulk string announced. -/
  readingStrSize : UInt64
  /-- `buffered_input`. -/
  bufferedInput : Bytes
  /-- `req_list`: the elements of the open request so far. -/
  reqList : List Bytes
  deriving DecidableEq

/-- A decoder call: the handler calls it makes, and the context it leaves or
the exception it throws. -/
abbrev Decoding (α : Type) : Type := Traced HandlerCall StdException α

namespace DecodeContext

/-- `decode_context::decode_context`. The constructor does not set
`reading_str_size`, whose initial value is therefore a parameter. -/
def new (sessionId : Int32) (readingStrSize : UInt64) : DecodeContext where
  sessionId := sessionId
  lastCommandId := 0
  state := .init
  readingListSize := 0
  readingStrSize := readingStrSize
  bufferedInput := []
  reqList := []

/-- `decode_context::pop_buffer`. -/
def popBuffer (ctx : DecodeContext) (start : Int32) : Decoding DecodeContext := do
  let rest ← Traced.ofExcept (substrFrom ctx.bufferedInput start
    (ctx.bufferedInput.length - start.toInt.toNat))
  pure { ctx with bufferedInput := rest }

/-- `decode_context::append_new_buffer`. -/
def appendNewBuffer (ctx : DecodeContext) (buffer : Bytes) : DecodeContext :=
  { ctx with bufferedInput := ctx.bufferedInput ++ buffer }

/-- `decode_context::push_element`: the element that completes the request
sends it to the handler. -/
def pushElement (ctx : DecodeContext) (element : Bytes) : Decoding DecodeContext :=
  let ctx := { ctx with readingStrSize := 0, reqList := ctx.reqList ++ [element] }
  if ctx.reqList.length = ctx.readingListSize.toNat then do
    Traced.emit ⟨ctx.lastCommandId, ctx.reqList⟩
    pure { ctx with
      lastCommandId := ctx.lastCommandId + 1
      reqList := []
      readingListSize := 0
      state := .init }
  else
    pure { ctx with state := .parseElements }

end DecodeContext

/-- The `std::stoi` of a header or length token, past its first character. -/
def stoiTail (token : Bytes) : Except StdException ℤ := do
  stoi (← substr token 1 (token.length - 1))

/-- The `switch` of `decoder::parse`: what one token does in the state it is
met in, and whether it is done. -/
def handleToken (ctx : DecodeContext) (token : Bytes) : Decoding (DecodeContext × Bool) :=
  match ctx.state with
  | .init => do
    let n ← Traced.ofExcept (stoiTail token)
    pure ({ ctx with readingListSize := UInt64.ofInt n, state := .parseElements }, true)
  | .parseElements =>
    -- `token[0]` of an empty `std::string` is the null character
    if token.headD 0 = RespType.integers.code then
      pure ({ ctx with reqList := ctx.reqList ++ [token] }, true)
    else if token.headD 0 = RespType.bulkStrings.code then do
      let n ← Traced.ofExcept (stoiTail token)
      let ctx := { ctx with readingStrSize := UInt64.ofInt n }
      if ctx.readingStrSize = (0 : UInt64) then do
        let ctx ← ctx.pushElement []
        pure (ctx, true)
      else
        -- the test whether the payload is buffered only leaves the `switch`,
        -- as the fall-through behind it does
        pure ({ ctx with state := .parseBlukStrings }, true)
    else
      pure (ctx, true)
  | .parseBlukStrings =>
    if token.length < ctx.readingStrSize.toNat then
      pure (ctx, false)
    else if ctx.readingStrSize.toNat < token.length then
      pure (ctx, true)
    else do
      let ctx ← ctx.pushElement token
      pure (ctx, true)

/-- The condition of the `if` in the scan loop: a CRLF at the index. -/
def isTerminator (buf : Bytes) (i : Int32) : Except StdException Bool := do
  if (← charAt buf i) ≠ cr then pure false
  else if (i + 1).toInt = buf.length then pure false
  else pure ((← charAt buf (i + 1)) == lf)

/-- The scan loop of `decoder::parse` over the buffer `buf`, from position
`i`, with the open token starting at `tokenStart`. It ends with the context
and the start of the token left open. -/
def parseLoop (buf : Bytes) (ctx : DecodeContext) (tokenStart i : Int32) :
    Decoding (DecodeContext × Int32) :=
  if _h : Inside buf i then do
    if ← Traced.ofExcept (isTerminator buf i) then
      let token ← Traced.ofExcept (substrFrom buf tokenStart
        (UInt64.ofInt (i - tokenStart).toInt).toNat)
      let (ctx, isTokenDone) ← handleToken ctx token
      -- the `'\n'` is skipped, and the loop steps on
      if isTokenDone then parseLoop buf ctx (i + 1 + 1) (i + 1 + 1)
      else parseLoop buf ctx tokenStart (i + 1)
    else
      parseLoop buf ctx tokenStart (i + 1)
  else
    pure (ctx, tokenStart)
termination_by leftFrom buf i
decreasing_by
  · exact leftFrom_add_two_lt _h
  · exact leftFrom_add_one_lt _h
  · exact leftFrom_add_one_lt _h

/-- `decoder::parse`. -/
def parse (ctx : DecodeContext) : Decoding DecodeContext := do
  let (ctx, tokenStart) ← parseLoop ctx.bufferedInput ctx 0 0
  ctx.popBuffer tokenStart

/-- `decoder::decode`. -/
def decode (ctx : DecodeContext) : Decoding DecodeContext :=
  if ctx.bufferedInput.length ≤ 0 then pure ctx else parse ctx

/-- What `read_from_client` does with the bytes of one read. -/
def receive (ctx : DecodeContext) (command : Bytes) : Decoding DecodeContext :=
  decode (ctx.appendNewBuffer command)

/-- A sequence of reads; an exception ends it. -/
def receiveAll (ctx : DecodeContext) : List Bytes → Decoding DecodeContext
  | [] => pure ctx
  | command :: commands => receive ctx command >>= fun ctx => receiveAll ctx commands

/-! ## The encoder -/

/-- `encode_result`. -/
structure EncodeResult where
  /-- `status`. -/
  status : Status
  /-- `response`. -/
  response : Bytes
  deriving DecidableEq

/-- `redis_type_value_pair`. -/
structure RedisTypeValuePair where
  /-- `type`. -/
  type : RespType
  /-- `value`. -/
  value : Bytes
  deriving DecidableEq

/-- A bulk string on the wire: its length, then its bytes. -/
def bulkString (value : Bytes) : Bytes :=
  ofString "$" ++ decimal value.length ++ crlf ++ value ++ crlf

/-- The body of the loop of `encoder::encode` over a list: the text of one
entry. -/
def encodePair (pair : RedisTypeValuePair) : Bytes :=
  match pair.type with
  | .simpleStrings => ofString "+" ++ pair.value ++ crlf
  | .errors => ofString "-" ++ pair.value ++ crlf
  | .integers => bulkString pair.value
  | .bulkStrings => bulkString pair.value
  | .bulkNil => ofString "$-1" ++ crlf
  | .arrays => []

/-- `encoder::encode` of a list of typed values: an array. -/
def encodeList (list : List RedisTypeValuePair) : EncodeResult where
  status := .ok
  response := ofString "*" ++ decimal list.length ++ crlf ++ (list.map encodePair).flatten

/-- `encoder::encode` of a type and its arguments. All types but the array
take `args[0]`, which every caller provides. -/
def encode (type : RespType) (args : List Bytes) : EncodeResult where
  status := .ok
  response :=
    match type with
    | .simpleStrings => ofString "+" ++ args.headD [] ++ crlf
    | .errors => ofString "-" ++ args.headD [] ++ crlf
    | .integers => bulkString (args.headD [])
    | .bulkStrings => bulkString (args.headD [])
    | .bulkNil => ofString "$-1" ++ crlf
    | .arrays =>
      ofString "*" ++ decimal args.length ++ crlf ++ (args.map bulkString).flatten

end SimpleResp
