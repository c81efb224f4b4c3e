import GameStore.Commands

/-!
# Dispatch (`registry.rs`, `server.rs`)
-/

namespace GameStore

open Lib

/-! ## The registry -/

/-- A registered command; the name is in upper case, and a negative arity is a minimum. -/
structure CommandSpec where
  name : String
  arity : ℤ
  handler : RespVersion → List Bytes → CommandM Frame

def CommandSpec.nameLower (spec : CommandSpec) : String := toAsciiLowercase spec.name

def standardCommands (ft : FloatText) : List CommandSpec :=
  [⟨"PING", -1, fun _ => ping⟩, ⟨"ECHO", 2, fun _ => echo⟩,
    ⟨"SET", -3, fun _ => setCommand⟩, ⟨"GET", 2, fun _ => getCommand⟩,
    ⟨"DEL", -2, fun _ => delCommand⟩, ⟨"EXISTS", -2, fun _ => existsCommand⟩,
    ⟨"TYPE", 2, fun _ => typeCommand⟩, ⟨"EXPIRE", 3, fun _ => expireCommand⟩,
    ⟨"PEXPIRE", 3, fun _ => pexpireCommand⟩, ⟨"TTL", 2, fun _ => ttlCommand⟩,
    ⟨"PTTL", 2, fun _ => pttlCommand⟩,
    ⟨"HSET", -4, fun _ => hsetCommand⟩, ⟨"HMSET", -4, fun _ => hsetCommand⟩,
    ⟨"HGET", 3, fun _ => hgetCommand⟩, ⟨"HMGET", -3, fun _ => hmgetCommand⟩,
    ⟨"HGETALL", 2, hgetallCommand⟩, ⟨"HDEL", -3, fun _ => hdelCommand⟩,
    ⟨"HLEN", 2, fun _ => hlenCommand⟩, ⟨"HEXISTS", 3, fun _ => hexistsCommand⟩,
    ⟨"SADD", -3, fun _ => saddCommand⟩, ⟨"SREM", -3, fun _ => sremCommand⟩,
    ⟨"SISMEMBER", 3, fun _ => sismemberCommand⟩, ⟨"SMEMBERS", 2, smembersCommand⟩,
    ⟨"SCARD", 2, fun _ => scardCommand⟩,
    ⟨"ZADD", -4, fun _ => zaddCommand ft⟩, ⟨"ZSCORE", 3, zscoreCommand ft⟩,
    ⟨"ZRANGE", -4, zrangeCommand ft⟩, ⟨"ZRANGEBYSCORE", -4, zrangebyscoreCommand ft⟩,
    ⟨"ZREM", -3, fun _ => zremCommand⟩, ⟨"ZCARD", 2, fun _ => zcardCommand⟩,
    ⟨"LPUSH", -3, fun _ => pushCommand⟩, ⟨"RPUSH", -3, fun _ => pushCommand⟩,
    ⟨"LPOP", -2, fun _ => popCommand⟩, ⟨"RPOP", -2, fun _ => popCommand⟩,
    ⟨"LRANGE", 4, fun _ => lrangeCommand⟩, ⟨"LLEN", 2, fun _ => llenCommand⟩,
    ⟨"DBSIZE", 1, fun _ _ => dbsizeCommand⟩, ⟨"RAWCOUNT", 1, fun _ _ => rawcountCommand⟩,
    ⟨"COMPACT", 1, fun _ _ => compactCommand⟩]

def arityMatches (arity : ℤ) (argc : ℕ) : Bool :=
  if 0 < arity then (argc : ℤ) = arity else -arity ≤ argc

/-- The name commands are looked up by. -/
def upperName (raw : Bytes) : String := toAsciiUppercase (fromUtf8Lossy raw)

/-- `CommandRegistry::dispatch`. -/
def registryDispatch (ft : FloatText) (version : RespVersion) (args : List Bytes) : CommandM Frame :=
  match args with
  | [] => pure (.error "ERR empty command")
  | first :: _ =>
    match (standardCommands ft).find? fun spec => spec.name = upperName first with
    | none => pure (.error s!"ERR unknown command '{fromUtf8Lossy first}'")
    | some spec =>
      if arityMatches spec.arity args.length then spec.handler version args
      else pure (wrongArgs spec.nameLower)

/-! ## The connection layer -/

structure Action where
  reply : Frame
  close : Bool
  setVersion : Option RespVersion

def Action.ofReply (reply : Frame) : Action := ⟨reply, false, none⟩

/-- The version the reply is encoded for: the codec is switched before it is sent. -/
def Action.wireVersion (action : Action) (current : RespVersion) : RespVersion :=
  action.setVersion.getD current

/-- What is sent for it. -/
def Action.wire (ft : FloatText) (current : RespVersion) (action : Action) : Bytes :=
  encode ft (action.wireVersion current) action.reply

def RespVersion.asI64 : RespVersion → Int64
  | .v2 => 2
  | .v3 => 3

def RespVersion.fromI64 (v : Int64) : Option RespVersion :=
  if v = 2 then some .v2 else if v = 3 then some .v3 else none

def flush (args : List Bytes) : CommandM Frame :=
  let name := if eqIgnoreAsciiCase (arg args 0) (utf8 "FLUSHALL") then "flushall" else "flushdb"
  let known := eqIgnoreAsciiCase (arg args 1) (utf8 "ASYNC") || eqIgnoreAsciiCase (arg args 1) (utf8 "SYNC")
  if args.length = 2 && !known then pure SYNTAX_ERROR
  else if 2 < args.length then pure (wrongArgs name)
  else do
    match ← ask flushAll with
    | .ok _ => pure .OK
    | .error e => pure (.error s!"ERR {e.toText}")

def client (args : List Bytes) (connId : Int64) : Frame :=
  match args[1]? with
  | none => .error "ERR wrong number of arguments for 'client' command"
  | some sub =>
    let other := upperName sub
    if other ∈ ["SETINFO", "SETNAME", "NO-EVICT", "NO-TOUCH"] then .OK
    else if other = "ID" then .integer connId
    else if other = "GETNAME" then .bulk []
    else .error
      s!"ERR Unknown subcommand or wrong number of arguments for '{other}'. Try CLIENT HELP."

def select (args : List Bytes) : Frame :=
  if args.length ≠ 2 then .error "ERR wrong number of arguments for 'select' command"
  else match parseInt (arg args 1) with
    | some n => if n = 0 then .OK else .error "ERR DB index is out of range"
    | none => .error "ERR value is not an integer or out of range"

/-- `str::trim`. -/
def trim (s : String) : String :=
  String.ofList (((s.toList.dropWhile isWhitespace).reverse.dropWhile isWhitespace).reverse)

/-- The value of `CARGO_PKG_VERSION`. -/
def PKG_VERSION : String := "0.1.0"

def helloFields (version : RespVersion) (connId : Int64) : List (Frame × Frame) :=
  [(.bulk (utf8 "server"), .bulk (utf8 "gamestore")),
    (.bulk (utf8 "version"), .bulk (utf8 PKG_VERSION)),
    (.bulk (utf8 "proto"), .integer version.asI64),
    (.bulk (utf8 "id"), .integer connId),
    (.bulk (utf8 "mode"), .bulk (utf8 "standalone")),
    (.bulk (utf8 "role"), .bulk (utf8 "master")),
    (.bulk (utf8 "modules"), .array [])]

def helloReply (version : RespVersion) (connId : Int64) : Frame :=
  match version with
  | .v3 => .map (helloFields version connId)
  | .v2 => .array ((helloFields version connId).flatMap fun p => [p.1, p.2])

def hello (args : List Bytes) (current : RespVersion) (connId : Int64) : Action :=
  match args[1]? with
  | none => ⟨helloReply current connId, false, none⟩
  | some raw =>
    match (i64FromStr (trim (fromUtf8Lossy raw))).bind RespVersion.fromI64 with
    | some v => ⟨helloReply v connId, false, some v⟩
    | none => .ofReply (.error "NOPROTO unsupported protocol version")

/-- One request; `args` is not empty (`handle_connection` skips empty ones). -/
def dispatch (ft : FloatText) (args : List Bytes) (version : RespVersion) (connId : Int64) :
    CommandM Action :=
  let name := upperName (arg args 0)
  if name = "HELLO" then pure (hello args version connId)
  else if name = "QUIT" then pure ⟨.OK, true, none⟩
  else if name = "CLIENT" then pure (.ofReply (client args connId))
  else if name = "SELECT" then pure (.ofReply (select args))
  else if name = "COMMAND" then pure (.ofReply (.array []))
  else if name = "FLUSHDB" ∨ name = "FLUSHALL" then Action.ofReply <$> flush args
  else Action.ofReply <$> registryDispatch ft version args

end GameStore
