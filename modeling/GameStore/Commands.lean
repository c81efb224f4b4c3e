import GameStore.Operation
import GameStore.Lossy
import GameStore.Decode

/-!
# The command layer (`gamestore-datamodel`)

A handler runs operations of the store one after the other and makes a reply of what
they return. `ask` is one call of the store; an engine error comes back as a value.
-/

namespace GameStore

open Lib

abbrev CommandM := StateM World

def ask {α : Type} (p : StoreM α) : CommandM (Except EngineError α) := fun w => p.run exec w

/-- Go on from where the first part ends. -/
theorem CommandM.bind_run {α β : Type} {x : CommandM α} {f : α → CommandM β} {w w' : World} {a : α}
    (h : x w = (a, w')) : (x >>= f) w = f a w' := by
  change f (x w).1 (x w).2 = f a w'
  rw [h]

/-! ## Replies and arguments (`registry.rs`) -/

def Frame.OK : Frame := .simple "OK"

def EngineError.toText : EngineError → String
  | .backend msg => s!"engine backend error: {msg}"
  | .corruption msg => s!"engine corruption: {msg}"
  | .wrongType => "WRONGTYPE Operation against a key holding the wrong kind of value"

def engineError : EngineError → Frame
  | .wrongType => .error EngineError.wrongType.toText
  | other => .error s!"ERR {other.toText}"

def wrongArgs (name : String) : Frame := .error s!"ERR wrong number of arguments for '{name}' command"

def NOT_AN_INTEGER : String := "ERR value is not an integer or out of range"

def SYNTAX_ERROR : Frame := .error "ERR syntax error"

/-- The strict integer parse of `registry.rs`. -/
def parseInt (b : Bytes) : Option Int64 := (String.fromUTF8? ⟨b.toArray⟩).bind i64FromStr

/-- `args[i]`; the arity is checked before, so that the argument is there. -/
def arg (args : List Bytes) (i : ℕ) : Bytes := args.getD i []

/-- `match ctx.store.… { Ok(a) => …, Err(e) => engine_error(e) }`. -/
def replyWith {α : Type} (p : StoreM α) (reply : α → Frame) : CommandM Frame := do
  match ← ask p with
  | .ok a => pure (reply a)
  | .error e => pure (engineError e)

/-- The two branches of `replyWith`. -/
def replyOf {α : Type} (reply : α → Frame) : Except EngineError α → Frame
  | .ok a => reply a
  | .error e => engineError e

theorem replyWith_apply {α : Type} (p : StoreM α) (reply : α → Frame) (w : World) :
    replyWith p reply w = (replyOf reply (p.run exec w).1, (p.run exec w).2) := by
  change (match (p.run exec w).1 with
    | .ok a => pure (reply a)
    | .error e => pure (engineError e) : CommandM Frame) (p.run exec w).2 = _
  cases (p.run exec w).1 <;> rfl

def integer (n : ℤ) : Frame := .integer (Int64.ofInt n)

def bulkOrNull : Option Bytes → Frame
  | some v => .bulk v
  | none => .null

/-- `chunks_exact(2)`. -/
def pairUp : List Bytes → List (Bytes × Bytes)
  | a :: b :: rest => (a, b) :: pairUp rest
  | _ => []

/-! ## Connectivity and introspection -/

def ping (args : List Bytes) : CommandM Frame :=
  pure (if args.length = 1 then .simple "PONG"
    else if args.length = 2 then .bulk (arg args 1)
    else wrongArgs "ping")

def echo (args : List Bytes) : CommandM Frame := pure (.bulk (arg args 1))

def dbsizeCommand : CommandM Frame := replyWith dbsize integer

def rawcountCommand : CommandM Frame := replyWith rawSubkeyCount integer

def compactCommand : CommandM Frame := replyWith compact fun _ => .OK

/-! ## Strings and expiry -/

def invalidExpire (cmd : String) : Frame := .error s!"ERR invalid expire time in '{cmd}' command"

/-- A result of `i64` arithmetic, when it is in range. -/
def checked (n : ℤ) : Option Int64 := if -2 ^ 63 ≤ n ∧ n < 2 ^ 63 then some (Int64.ofInt n) else none

def checkedMul (a b : Int64) : Option Int64 := checked (a.toInt * b.toInt)

def checkedAdd (a b : Int64) : Option Int64 := checked (a.toInt + b.toInt)

def saturatingAdd (a b : Int64) : Int64 :=
  Int64.ofInt (max (-2 ^ 63) (min (2 ^ 63 - 1) (a.toInt + b.toInt)))

/-- The `EX` and `PX` options of `SET`, and the deadline they give. -/
def setOptions : List Bytes → UInt64 → CommandM (Except Frame UInt64)
  | [], expireMs => pure (.ok expireMs)
  | opt :: rest, expireMs =>
    let unitMs : Option Int64 := if eqIgnoreAsciiCase opt (utf8 "EX") then some 1000
      else if eqIgnoreAsciiCase opt (utf8 "PX") then some 1
      else none
    match unitMs with
    | none => pure (.error SYNTAX_ERROR)
    | some unitMs =>
      if expireMs ≠ 0 then pure (.error SYNTAX_ERROR)
      else match rest with
        | [] => pure (.error SYNTAX_ERROR)
        | raw :: rest => match parseInt raw with
          | none => pure (.error (.error NOT_AN_INTEGER))
          | some n =>
            if n ≤ 0 then pure (.error (invalidExpire "set"))
            else match checkedMul n unitMs with
              | none => pure (.error (invalidExpire "set"))
              | some delta => do
                match ← ask nowMs with
                | .error e => pure (.error (engineError e))
                | .ok now => match checkedAdd delta now.toInt64 with
                  | none => pure (.error (invalidExpire "set"))
                  | some deadline => setOptions rest deadline.toUInt64

def setCommand (args : List Bytes) : CommandM Frame := do
  match ← setOptions (args.drop 3) 0 with
  | .error reply => pure reply
  | .ok expireMs => replyWith (set (arg args 1) (arg args 2) expireMs) fun _ => .OK

def getCommand (args : List Bytes) : CommandM Frame := replyWith (get (arg args 1)) bulkOrNull

/-- The loop of `DEL` and `EXISTS`: how many of the keys say yes. -/
def countKeys (p : Bytes → StoreM Bool) : List Bytes → ℤ → CommandM Frame
  | [], n => pure (integer n)
  | key :: keys, n => do
    match ← ask (p key) with
    | .ok true => countKeys p keys (n + 1)
    | .ok false => countKeys p keys n
    | .error e => pure (engineError e)

def delCommand (args : List Bytes) : CommandM Frame := countKeys del (args.drop 1) 0

def existsCommand (args : List Bytes) : CommandM Frame := countKeys «exists» (args.drop 1) 0

def typeCommand (args : List Bytes) : CommandM Frame := replyWith (typeOf (arg args 1)) .simple

/-- `EXPIRE` and `PEXPIRE`; a deadline that has passed is `1`, since `0` means none. -/
def expireGeneric (unitMs : Int64) (cmd : String) (args : List Bytes) : CommandM Frame := do
  match parseInt (arg args 2) with
  | none => pure (.error NOT_AN_INTEGER)
  | some n => match checkedMul n unitMs with
    | none => pure (invalidExpire cmd)
    | some delta => do
      match ← ask nowMs with
      | .error e => pure (engineError e)
      | .ok now =>
        let deadline := (max (saturatingAdd now.toInt64 delta) 1).toUInt64
        replyWith (expireAt (arg args 1) deadline) fun existed => integer (if existed then 1 else 0)

def expireCommand : List Bytes → CommandM Frame := expireGeneric 1000 "expire"

def pexpireCommand : List Bytes → CommandM Frame := expireGeneric 1 "pexpire"

/-- Seconds, rounded up. -/
def ttlCommand (args : List Bytes) : CommandM Frame :=
  replyWith (pttl (arg args 1)) fun n =>
    let ms := Int64.ofInt n
    if ms < 0 then .integer ms else .integer ((ms + 999) / 1000)

def pttlCommand (args : List Bytes) : CommandM Frame := replyWith (pttl (arg args 1)) integer

/-! ## Hashes -/

/-- Also `HMSET`, which complains and replies under its own name. -/
def hsetCommand (args : List Bytes) : CommandM Frame :=
  let isHmset := eqIgnoreAsciiCase (arg args 0) (utf8 "HMSET")
  if (args.length - 2) % 2 ≠ 0 then pure (wrongArgs (if isHmset then "hmset" else "hset"))
  else replyWith (hset (arg args 1) (pairUp (args.drop 2))) fun created =>
    if isHmset then .OK else integer created

def hgetCommand (args : List Bytes) : CommandM Frame :=
  replyWith (hget (arg args 1) (arg args 2)) bulkOrNull

/-- The loop of `HMGET`. -/
def hmgetLoop (key : Bytes) : List Bytes → List Frame → CommandM Frame
  | [], items => pure (.array items)
  | field :: fields, items => do
    match ← ask (hget key field) with
    | .ok v => hmgetLoop key fields (items ++ [bulkOrNull v])
    | .error e => pure (engineError e)

def hmgetCommand (args : List Bytes) : CommandM Frame := hmgetLoop (arg args 1) (args.drop 2) []

def hgetallCommand (version : RespVersion) (args : List Bytes) : CommandM Frame :=
  replyWith (hgetall (arg args 1)) fun pairs => match version with
    | .v3 => .map (pairs.map fun p => (.bulk p.1, .bulk p.2))
    | .v2 => .array (pairs.flatMap fun p => [.bulk p.1, .bulk p.2])

def hdelCommand (args : List Bytes) : CommandM Frame :=
  replyWith (hdel (arg args 1) (args.drop 2)) integer

def hlenCommand (args : List Bytes) : CommandM Frame := replyWith (hlen (arg args 1)) integer

def hexistsCommand (args : List Bytes) : CommandM Frame :=
  replyWith (hexists (arg args 1) (arg args 2)) fun found => integer (if found then 1 else 0)

/-! ## Sets -/

def saddCommand (args : List Bytes) : CommandM Frame :=
  replyWith (sadd (arg args 1) (args.drop 2)) integer

def sremCommand (args : List Bytes) : CommandM Frame :=
  replyWith (srem (arg args 1) (args.drop 2)) integer

def sismemberCommand (args : List Bytes) : CommandM Frame :=
  replyWith (sismember (arg args 1) (arg args 2)) fun found => integer (if found then 1 else 0)

def smembersCommand (version : RespVersion) (args : List Bytes) : CommandM Frame :=
  replyWith (smembers (arg args 1)) fun members => match version with
    | .v3 => .set (members.map .bulk)
    | .v2 => .array (members.map .bulk)

def scardCommand (args : List Bytes) : CommandM Frame := replyWith (scard (arg args 1)) integer

/-! ## Sorted sets -/

def NOT_A_FLOAT : String := "ERR value is not a valid float"

def BAD_RANGE_BOUND : String := "ERR min or max is not a float"

/-- `char::is_whitespace`. -/
def isWhitespace (c : Char) : Bool :=
  (9 ≤ c.toNat && c.toNat ≤ 13) || c.toNat ∈ [0x20, 0x85, 0xA0, 0x1680, 0x2028, 0x2029, 0x202F, 0x205F, 0x3000] ||
    (0x2000 ≤ c.toNat && c.toNat ≤ 0x200A)

namespace F64

/-- The integer a finite number is, when it is one: `x == x.trunc()`, and its value. -/
def toInt? (x : F64) : Option ℤ :=
  let exponent := x.magnitude / 2 ^ 52
  let fraction := x.magnitude % 2 ^ 52
  -- The number is `mantissa * 2 ^ (scale - 1075)`; subnormal numbers have the scale 1.
  let mantissa := if exponent = 0 then fraction else 2 ^ 52 + fraction
  let scale := if exponent = 0 then 1 else exponent
  let size : Option ℕ := if 1075 ≤ scale then some (mantissa * 2 ^ (scale - 1075))
    else if mantissa % 2 ^ (1075 - scale) = 0 then some (mantissa / 2 ^ (1075 - scale))
    else none
  if x.isFinite then size.map fun n : ℕ => if x.negative then -(n : ℤ) else n else none

end F64

section Scores

variable (ft : FloatText)

/-- `{score}`. -/
def displayF64 (x : F64) : String :=
  if x.isNaN then "NaN"
  else if x.isInfinite then (if x.negative then "-inf" else "inf")
  else ft.display x

def parseScore (raw : Bytes) : Option F64 :=
  (String.fromUTF8? ⟨raw.toArray⟩).bind fun s =>
    if s.isEmpty || s.toList.any isWhitespace then none
    else (ft.parse s).bind fun v => if v.isNaN then none else some v

/-- A score and whether the bound excludes it. -/
def parseScoreBound (raw : Bytes) : Option (F64 × Bool) :=
  match raw with
  | 40 :: rest => (parseScore ft rest).map fun v => (v, true)
  | _ => (parseScore ft raw).map fun v => (v, false)

def formatScore (score : F64) : String :=
  match score.toInt? with
  | some n => if n.natAbs < 10 ^ 17 then toString n else displayF64 ft score
  | none => displayF64 ft score

def scoreFrame (version : RespVersion) (score : F64) : Frame :=
  match version with
  | .v3 => .double score
  | .v2 => .bulk (utf8 (formatScore ft score))

def rangeReply (version : RespVersion) (withscores : Bool) (pairs : List (Bytes × F64)) : Frame :=
  if !withscores then .array (pairs.map fun p => .bulk p.1)
  else match version with
    | .v2 => .array (pairs.flatMap fun p => [.bulk p.1, .bulk (utf8 (formatScore ft p.2))])
    | .v3 => .array (pairs.map fun p => .array [.bulk p.1, .double p.2])

/-- The score and member arguments of `ZADD`. -/
def parsePairs : List (Bytes × Bytes) → Option (List (F64 × Bytes))
  | [] => some []
  | sm :: rest => (parseScore ft sm.1).bind fun score =>
    (parsePairs rest).map fun pairs => (score, sm.2) :: pairs

def zaddCommand (args : List Bytes) : CommandM Frame :=
  let flags := ["NX", "XX", "GT", "LT", "CH", "INCR"]
  if flags.any fun f => eqIgnoreAsciiCase (arg args 2) (utf8 f) then pure SYNTAX_ERROR
  else if (args.length - 2) % 2 ≠ 0 then pure SYNTAX_ERROR
  else match parsePairs ft (pairUp (args.drop 2)) with
    | none => pure (.error NOT_A_FLOAT)
    | some pairs => replyWith (zadd (arg args 1) pairs) integer

def zscoreCommand (version : RespVersion) (args : List Bytes) : CommandM Frame :=
  replyWith (zscore (arg args 1) (arg args 2)) fun score => match score with
    | some score => scoreFrame ft version score
    | none => .null

def zrangeCommand (version : RespVersion) (args : List Bytes) : CommandM Frame :=
  match parseInt (arg args 2), parseInt (arg args 3) with
  | some start, some stop =>
    let withscores : Option Bool := match args[4]? with
      | none => some false
      | some opt => if eqIgnoreAsciiCase opt (utf8 "WITHSCORES") then some true else none
    match withscores with
    | none => pure SYNTAX_ERROR
    | some withscores =>
      if 5 < args.length then pure SYNTAX_ERROR
      else replyWith (zrange (arg args 1) start stop) (rangeReply ft version withscores)
  | _, _ => pure (.error NOT_AN_INTEGER)

/-- The options of `ZRANGEBYSCORE`: `WITHSCORES` and the last `LIMIT`. -/
def rangeOptions : List Bytes → Bool → Option (Int64 × Int64) → Option (Bool × Option (Int64 × Int64))
  | [], withscores, limit => some (withscores, limit)
  | opt :: rest, withscores, limit =>
    if eqIgnoreAsciiCase opt (utf8 "WITHSCORES") then rangeOptions rest true limit
    else if eqIgnoreAsciiCase opt (utf8 "LIMIT") then match rest with
      | off :: cnt :: rest => match parseInt off, parseInt cnt with
        | some off, some cnt => rangeOptions rest withscores (some (off, cnt))
        | _, _ => none
      | _ => none
    else none

/-- A negative offset gives nothing, a negative count no limit. -/
def limited {α : Type} (limit : Option (Int64 × Int64)) (l : List α) : List α :=
  match limit with
  | none => l
  | some (off, cnt) =>
    if off < 0 then []
    else if cnt < 0 then l.drop off.toInt.toNat
    else (l.drop off.toInt.toNat).take cnt.toInt.toNat

def zrangebyscoreCommand (version : RespVersion) (args : List Bytes) : CommandM Frame :=
  match parseScoreBound ft (arg args 2), parseScoreBound ft (arg args 3) with
  | some (min, minExcl), some (max, maxExcl) =>
    match rangeOptions (args.drop 4) false none with
    | none => pure SYNTAX_ERROR
    | some (withscores, limit) =>
      replyWith (zrangeByScore (arg args 1) min minExcl max maxExcl) fun pairs =>
        rangeReply ft version withscores (limited limit pairs)
  | _, _ => pure (.error BAD_RANGE_BOUND)

end Scores

def zremCommand (args : List Bytes) : CommandM Frame :=
  replyWith (zrem (arg args 1) (args.drop 2)) integer

def zcardCommand (args : List Bytes) : CommandM Frame := replyWith (zcard (arg args 1)) integer

/-! ## Lists -/

def pushCommand (args : List Bytes) : CommandM Frame :=
  let left := eqIgnoreAsciiCase (arg args 0) (utf8 "LPUSH")
  replyWith (push (arg args 1) (args.drop 2) left) integer

/-- The optional count of `LPOP` and `RPOP`. -/
def popCount (raw : Option Bytes) : Except Frame (Option ℕ) :=
  match raw with
  | none => .ok none
  | some raw => match parseInt raw with
    | some n =>
      if 0 ≤ n then .ok (some n.toInt.toNat)
      else .error (.error "ERR value is out of range, must be positive")
    | none => .error (.error NOT_AN_INTEGER)

def popCommand (args : List Bytes) : CommandM Frame :=
  let left := eqIgnoreAsciiCase (arg args 0) (utf8 "LPOP")
  match popCount args[2]? with
  | .error reply => pure reply
  | .ok count =>
    if 3 < args.length then pure (wrongArgs (if left then "lpop" else "rpop"))
    else do
      match ← ask (llen (arg args 1)) with
      | .error e => pure (engineError e)
      | .ok n =>
        if n ≤ 0 then pure .null
        else replyWith (pop (arg args 1) (count.getD 1) left) fun popped => match count with
          | none => bulkOrNull popped.head?
          | some _ => .array (popped.map .bulk)

def lrangeCommand (args : List Bytes) : CommandM Frame :=
  match parseInt (arg args 2), parseInt (arg args 3) with
  | some start, some stop =>
    replyWith (lrange (arg args 1) start stop) fun values => .array (values.map .bulk)
  | _, _ => pure (.error NOT_AN_INTEGER)

def llenCommand (args : List Bytes) : CommandM Frame := replyWith (llen (arg args 1)) integer

end GameStore
