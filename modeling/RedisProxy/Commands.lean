import RedisProxy.HandlerRuns

/-!
# The commands

The twelve commands `processer_worker` knows, each with the handler it calls
and the number of elements this handler goes on with. Every handler looks at
`redis_args.size()` first and refuses any other number; the numbers count the
name of the command.
-/

namespace LogcabinRedisProxy

open Bytes SimpleResp

/-- **How many elements a handler goes on with.** -/
inductive Arity where
  /-- `redis_args.size() != n` is refused. -/
  | exactly (n : ℕ)
  /-- `redis_args.size() < n` is refused. -/
  | atLeast (n : ℕ)
  deriving DecidableEq

/-- A request of `size` elements is not refused. -/
def Arity.Allows : Arity → ℕ → Prop
  | exactly n, size => size = n
  | atLeast n, size => n ≤ size

instance : (arity : Arity) → (size : ℕ) → Decidable (arity.Allows size)
  | .exactly n, size => inferInstanceAs (Decidable (size = n))
  | .atLeast n, size => inferInstanceAs (Decidable (n ≤ size))

/-- **A command the proxy knows.** -/
inductive Command where
  | rpush
  | sadd
  | srem
  | mget
  | smembers
  | scard
  | lpush
  | lrange
  | ltrim
  | expire
  | set
  | get
  deriving DecidableEq

namespace Command

/-- The name in capitals, which `processer_worker` compares with. -/
def name : Command → Bytes
  | rpush => ofString "RPUSH"
  | sadd => ofString "SADD"
  | srem => ofString "SREM"
  | mget => ofString "MGET"
  | smembers => ofString "SMEMBERS"
  | scard => ofString "SCARD"
  | lpush => ofString "LPUSH"
  | lrange => ofString "LRANGE"
  | ltrim => ofString "LTRIM"
  | expire => ofString "EXPIRE"
  | set => ofString "SET"
  | get => ofString "GET"

/-- The handler that takes the command. -/
def handler : Command → Handler
  | rpush => handleRpushRequest
  | sadd => handleSaddRequest
  | srem => handleSremRequest
  | mget => handleMgetRequest
  | smembers => handleSmembersRequest
  | scard => handleScardRequest
  | lpush => handleLpushRequest
  | lrange => handleLrangeRequest
  | ltrim => handleLtrimRequest
  | expire => handleExpireRequest
  | set => handleSetRequest
  | get => handleGetRequest

/-- The number of elements the handler goes on with. -/
def arity : Command → Arity
  | rpush => .atLeast 3
  | sadd => .atLeast 3
  | srem => .exactly 3
  | mget => .atLeast 2
  | smembers => .exactly 2
  | scard => .exactly 2
  | lpush => .atLeast 3
  | lrange => .exactly 4
  | ltrim => .exactly 4
  | expire => .exactly 3
  | set => .atLeast 3
  | get => .exactly 2

/-- The commands, in the order of the `if` chain. -/
def all : List Command :=
  [rpush, sadd, srem, mget, smembers, scard, lpush, lrange, ltrim, expire, set, get]

/-- The command of a name. -/
def ofName (command : Bytes) : Option Command := all.find? fun c => c.name = command

theorem ofName_name (c : Command) : ofName c.name = some c := by
  cases c <;> rfl

/-- No two commands have one name. -/
theorem name_injective : Function.Injective name := by
  intro c d h
  have hcd : ofName c.name = ofName d.name := congrArg ofName h
  rw [ofName_name, ofName_name] at hcd
  exact Option.some.inj hcd

/-- Every command finds its handler. -/
theorem handle_name (c : Command) : handle c.name = c.handler := by
  cases c <;> rfl

end Command

/-- The reply to any other command. -/
theorem handle_of_ne_name {command : Bytes} (h : ∀ c : Command, command ≠ c.name) :
    handle command = fun _ => pure (encode .errors [ofString "ERR unknown command"]) := by
  have hd := dispatch_handle command
  generalize handle command = handler at hd ⊢
  cases hd with
  | rpush => exact absurd rfl (h .rpush)
  | sadd => exact absurd rfl (h .sadd)
  | srem => exact absurd rfl (h .srem)
  | mget => exact absurd rfl (h .mget)
  | smembers => exact absurd rfl (h .smembers)
  | scard => exact absurd rfl (h .scard)
  | lpush => exact absurd rfl (h .lpush)
  | lrange => exact absurd rfl (h .lrange)
  | ltrim => exact absurd rfl (h .ltrim)
  | expire => exact absurd rfl (h .expire)
  | set => exact absurd rfl (h .set)
  | get => exact absurd rfl (h .get)
  | unknown _ _ _ _ => rfl

/-- **A request the proxy goes on with**: a command it knows, with a number of
elements its handler accepts. -/
def Accepts (request : List Bytes) : Prop :=
  ∃ c : Command, commandOf request = c.name ∧ c.arity.Allows request.length

theorem accepts_iff {request : List Bytes} {c : Command} (hc : commandOf request = c.name) :
    Accepts request ↔ c.arity.Allows request.length := by
  constructor
  · rintro ⟨d, hd, h⟩
    obtain rfl := Command.name_injective (hd.symm.trans hc)
    exact h
  · intro h
    exact ⟨c, hc, h⟩

end LogcabinRedisProxy
