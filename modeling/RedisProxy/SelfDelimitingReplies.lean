import RedisProxy.Replies
import RedisProxy.Library.SelfDelimiting

/-!
# Where a reply ends

The replies that carry stored data are bulk strings, nil and arrays of bulk
strings. A client takes them off one stream, and the strings in them are
whatever other clients have stored: nothing in a string may move the end of the
reply it is in.

Nothing does. The lengths are written in front, as digits up to a CRLF, so the
encodings are self-delimiting (`encode_selfDelimiting`): two replies with
anything behind them make the same bytes only if they are the same reply with
the same bytes behind it. The strict reader of `RedisProxy.Library.RespReply`
is the witness, and no part of the statement.
-/

namespace LogcabinRedisProxy

open Bytes SimpleResp

/-- **A reply that carries data.** -/
inductive DataReply where
  /-- A bulk string of any bytes. -/
  | bulkString (payload : Bytes)
  /-- The nil bulk. -/
  | bulkNil
  /-- An array of byte strings. -/
  | array (values : List Bytes)
  deriving DecidableEq

namespace DataReply

/-- The reply as `encoder::encode` writes it. -/
def response : DataReply → Bytes
  | bulkString payload => (encode .bulkStrings [payload]).response
  | bulkNil => (encode .bulkNil [[]]).response
  | array values => (encode .arrays values).response

/-- The value of the protocol the reply is. -/
def value : DataReply → RespValue
  | bulkString payload => .bulk payload
  | bulkNil => .nil
  | array values => arrayOf values

theorem encodes_response (reply : DataReply) : Encodes reply.response reply.value := by
  cases reply with
  | bulkString payload => exact encodes_bulkStrings payload
  | bulkNil => exact encodes_nilReply
  | array values => exact encodes_arrays values

theorem value_injective : Function.Injective value := by
  intro v w h
  cases v with
  | bulkString p =>
    cases w with
    | bulkString q => exact congrArg bulkString (RespValue.bulk.inj h)
    | bulkNil => cases h
    | array ws => cases h
  | bulkNil =>
    cases w with
    | bulkString q => cases h
    | bulkNil => rfl
    | array ws => cases h
  | array vs =>
    cases w with
    | bulkString q => cases h
    | bulkNil => cases h
    | array ws =>
      have hbulk : Function.Injective RespValue.bulk := fun _ _ => RespValue.bulk.inj
      exact congrArg array (hbulk.list_map (RespValue.array.inj h))

/-- Every reply begins with the marker of its type. -/
theorem response_ne_nil (reply : DataReply) : reply.response ≠ [] := by
  cases reply with
  | bulkString payload => exact List.cons_ne_nil _ _
  | bulkNil => exact List.cons_ne_nil _ _
  | array values => exact List.cons_ne_nil _ _

theorem selfDelimiting_response : SelfDelimiting response :=
  SelfDelimiting.of_reader value_injective fun reply t => reply.encodes_response t

end DataReply

/-- **Bulk and array replies are self-delimiting**, whatever bytes the strings in
them hold: the front of a stream is one such reply at most, and a stream of them
has one reading. -/
theorem encode_selfDelimiting :
    (∀ (v w : DataReply) (r t : Bytes), v.response ++ r = w.response ++ t → v = w ∧ r = t)
      ∧ ∀ vs ws : List DataReply,
        (vs.map DataReply.response).flatten = (ws.map DataReply.response).flatten → vs = ws :=
  ⟨fun _ _ _ _ h => DataReply.selfDelimiting_response h, fun _ _ h =>
    DataReply.selfDelimiting_response.flatten_injective DataReply.response_ne_nil h⟩

end LogcabinRedisProxy
