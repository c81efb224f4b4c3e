import GameStore.Store

/-!
# Operations and their replies

The operations of `Store` as data, so that a run is a list of them.
-/

namespace GameStore

open Lib

/-- A user key. The request decoder caps every argument at `max_bulk_len`
(512 MiB), so the `u32` length field of the versioned records never truncates. -/
abbrev Key := {k : Bytes // k.length < 2 ^ 32}

/-- The key `k`, for examples. -/
def Key.k : Key := ⟨[107], by decide⟩

def Key.l : Key := ⟨[108], by decide⟩

/-- The operations on one key. -/
inductive KeyOp
  | set (value : Bytes) (expireMs : UInt64)
  | get
  | exists
  | typeOf
  | del
  | expireAt (expireAtMs : UInt64)
  | pttl
  | hset (pairs : List (Bytes × Bytes))
  | hget (field : Bytes)
  | hgetall
  | hdel (fields : List Bytes)
  | hlen
  | hexists (field : Bytes)
  | sadd (members : List Bytes)
  | srem (members : List Bytes)
  | sismember (member : Bytes)
  | smembers
  | scard
  | zadd (pairs : List (F64 × Bytes))
  | zscore (member : Bytes)
  | zrem (members : List Bytes)
  | zcard
  | zrange (start stop : Int64)
  | zrangeByScore (min : F64) (minExclusive : Bool) (max : F64) (maxExclusive : Bool)
  | push (values : List Bytes) (left : Bool)
  | pop (count : ℕ) (left : Bool)
  | lrange (start stop : Int64)
  | llen
  deriving DecidableEq

inductive Op
  | keyed (key : Key) (op : KeyOp)
  | dbsize
  | rawSubkeyCount
  | compact
  | flushAll
  deriving DecidableEq

inductive Reply
  | unit
  | bool (b : Bool)
  | int (n : ℤ)
  | text (s : String)
  | value (v : Option Bytes)
  | values (l : List Bytes)
  | pairs (l : List (Bytes × Bytes))
  | score (s : Option F64)
  | scored (l : List (Bytes × F64))
  deriving DecidableEq

def KeyOp.prog (key : Bytes) : KeyOp → StoreM Reply
  | .set value expireMs => (fun _ => .unit) <$> GameStore.set key value expireMs
  | .get => .value <$> GameStore.get key
  | .exists => .bool <$> GameStore.exists key
  | .typeOf => .text <$> GameStore.typeOf key
  | .del => .bool <$> GameStore.del key
  | .expireAt expireAtMs => .bool <$> GameStore.expireAt key expireAtMs
  | .pttl => .int <$> GameStore.pttl key
  | .hset pairs => .int <$> GameStore.hset key pairs
  | .hget field => .value <$> GameStore.hget key field
  | .hgetall => .pairs <$> GameStore.hgetall key
  | .hdel fields => .int <$> GameStore.hdel key fields
  | .hlen => .int <$> GameStore.hlen key
  | .hexists field => .bool <$> GameStore.hexists key field
  | .sadd members => .int <$> GameStore.sadd key members
  | .srem members => .int <$> GameStore.srem key members
  | .sismember member => .bool <$> GameStore.sismember key member
  | .smembers => .values <$> GameStore.smembers key
  | .scard => .int <$> GameStore.scard key
  | .zadd pairs => .int <$> GameStore.zadd key pairs
  | .zscore member => .score <$> GameStore.zscore key member
  | .zrem members => .int <$> GameStore.zrem key members
  | .zcard => .int <$> GameStore.zcard key
  | .zrange start stop => .scored <$> GameStore.zrange key start stop
  | .zrangeByScore min minExclusive max maxExclusive =>
    .scored <$> GameStore.zrangeByScore key min minExclusive max maxExclusive
  | .push values left => .int <$> GameStore.push key values left
  | .pop count left => .values <$> GameStore.pop key count left
  | .lrange start stop => .values <$> GameStore.lrange key start stop
  | .llen => .int <$> GameStore.llen key

def Op.prog : Op → StoreM Reply
  | .keyed key op => op.prog key.1
  | .dbsize => .int <$> GameStore.dbsize
  | .rawSubkeyCount => .int <$> GameStore.rawSubkeyCount
  | .compact => (fun _ => .unit) <$> GameStore.compact
  | .flushAll => (fun _ => .unit) <$> GameStore.flushAll

def Op.run (op : Op) (w : World) : Except EngineError Reply × World := op.prog.run exec w

/-- The operations that only read their key (and expire it when it is due). -/
def KeyOp.isRead : KeyOp → Bool
  | .get | .exists | .typeOf | .pttl | .hget _ | .hgetall | .hlen | .hexists _ | .sismember _
  | .smembers | .scard | .zscore _ | .zcard | .zrange _ _ | .zrangeByScore _ _ _ _ | .lrange _ _
  | .llen => true
  | _ => false

/-- Element lists are non-empty, as the command layer's arity checks make them. -/
def KeyOp.wellCalled : KeyOp → Bool
  | .hset pairs => !pairs.isEmpty
  | .hdel fields => !fields.isEmpty
  | .sadd members => !members.isEmpty
  | .srem members => !members.isEmpty
  | .zadd pairs => !pairs.isEmpty
  | .zrem members => !members.isEmpty
  | .push values _ => !values.isEmpty
  | _ => true

def Op.wellCalled : Op → Bool
  | .keyed _ op => op.wellCalled
  | _ => true

/-- The persisted metadata of a key, if it decodes. -/
def readMeta (d : Disk) (key : Bytes) : Option Meta := d[metaKey key]? >>= Meta.decode

/-- The version under which a key's elements are live: that of its persisted
metadata, when this is of a composite type. -/
def diskVersion (d : Disk) (key : Bytes) : Option UInt64 :=
  (readMeta d key).bind fun m => if m.composite then some m.version else none

theorem readMeta_congr {d d' : Disk} {key : Bytes} (h : d[metaKey key]? = d'[metaKey key]?) :
    readMeta d key = readMeta d' key := by
  rw [readMeta, readMeta, h]

theorem diskVersion_congr {d d' : Disk} {key : Bytes} (h : d[metaKey key]? = d'[metaKey key]?) :
    diskVersion d key = diskVersion d' key := by
  rw [diskVersion, diskVersion, readMeta_congr h]

theorem diskVersion_eq_some {d : Disk} {key : Bytes} {v : UInt64} :
    diskVersion d key = some v ↔ ∃ m, readMeta d key = some m ∧ m.composite ∧ m.version = v := by
  rw [diskVersion, Option.bind_eq_some_iff]
  simp only [Option.ite_none_right_eq_some, Option.some.injEq]

/-- A record of one versioned incarnation of a key. -/
def RecordOf (key : Bytes) (version : UInt64) (raw : Bytes) : Prop :=
  parseOwnerVersion raw = some (key, version)

theorem RecordOf.ne_metaKey {key raw : Bytes} {version : UInt64} (h : RecordOf key version raw)
    (k : Bytes) : raw ≠ metaKey k := by
  rintro rfl
  rw [RecordOf, parseOwnerVersion_metaKey] at h
  cases h

/-- A batch that touches only records of one incarnation. -/
def Records (key : Bytes) (version : UInt64) (b : WriteBatch) : Prop :=
  ∀ op ∈ b, RecordOf key version op.key

theorem Records.nil {key : Bytes} {version : UInt64} : Records key version [] := by
  intro op hop
  cases hop

theorem Records.cons {key : Bytes} {version : UInt64} {op : WriteOp} {b : WriteBatch}
    (h : RecordOf key version op.key) (hb : Records key version b) : Records key version (op :: b) := by
  intro o ho
  obtain rfl | ho := List.mem_cons.mp ho
  · exact h
  · exact hb o ho

theorem Records.single {key : Bytes} {version : UInt64} {op : WriteOp}
    (h : RecordOf key version op.key) : Records key version [op] := Records.cons h Records.nil

theorem Records.append {key : Bytes} {version : UInt64} {b b' : WriteBatch}
    (hb : Records key version b) (hb' : Records key version b') : Records key version (b ++ b') := by
  intro op hop
  exact (List.mem_append.mp hop).elim (hb op) (hb' op)

/-! ## Metadata after a batch -/

theorem Records.getElem?_metaKey {key : Bytes} {version : UInt64} {b : WriteBatch}
    (hb : Records key version b) (d : Disk) (k : Bytes) :
    (applyBatch d b)[metaKey k]? = d[metaKey k]? :=
  getElem?_applyBatch_of_ne fun op hop => (hb op hop).ne_metaKey k

theorem Records.getElem?_of_not {key : Bytes} {version : UInt64} {b : WriteBatch}
    (hb : Records key version b) (d : Disk) {raw : Bytes} (hraw : ¬ RecordOf key version raw) :
    (applyBatch d b)[raw]? = d[raw]? := by
  apply getElem?_applyBatch_of_ne
  rintro op hop rfl
  exact hraw (hb op hop)

theorem readMeta_putMeta {key : Bytes} {version : UInt64} {b : WriteBatch}
    (hb : Records key version b) (d : Disk) (m : Meta) (k : Bytes) :
    readMeta (applyBatch d (b ++ [.put (metaKey key) m.encode])) k =
      if key = k then some m else readMeta d k := by
  simp only [readMeta, getElem?_applyBatch_concat, hb.getElem?_metaKey, WriteOp.key, WriteOp.value,
    metaKey_inj]
  split
  · exact m.decode_encode
  · rfl

theorem readMeta_eraseMeta {key : Bytes} {version : UInt64} {b : WriteBatch}
    (hb : Records key version b) (d : Disk) (k : Bytes) :
    readMeta ((applyBatch d b).erase (metaKey key)) k = if key = k then none else readMeta d k := by
  simp only [readMeta, getElem?_erase_bytes, hb.getElem?_metaKey, metaKey_inj]
  split <;> rfl

theorem diskVersion_putMeta {key : Bytes} {version : UInt64} {b : WriteBatch}
    (hb : Records key version b) (d : Disk) (m : Meta) (k : Bytes) :
    diskVersion (applyBatch d (b ++ [.put (metaKey key) m.encode])) k =
      if key = k then (if m.composite then some m.version else none) else diskVersion d k := by
  rw [diskVersion, readMeta_putMeta hb]
  split <;> rfl

theorem diskVersion_eraseMeta {key : Bytes} {version : UInt64} {b : WriteBatch}
    (hb : Records key version b) (d : Disk) (k : Bytes) :
    diskVersion ((applyBatch d b).erase (metaKey key)) k =
      if key = k then none else diskVersion d k := by
  rw [diskVersion, readMeta_eraseMeta hb]
  split <;> rfl

theorem diskVersion_put (d : Disk) (key : Bytes) (m : Meta) (k : Bytes) :
    diskVersion (applyBatch d [.put (metaKey key) m.encode]) k =
      if key = k then (if m.composite then some m.version else none) else diskVersion d k :=
  diskVersion_putMeta (Records.nil : Records key 0 []) d m k

theorem diskVersion_erase (d : Disk) (key k : Bytes) :
    diskVersion (d.erase (metaKey key)) k = if key = k then none else diskVersion d k :=
  diskVersion_eraseMeta (Records.nil : Records key 0 []) d k

end GameStore
