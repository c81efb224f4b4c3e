import GameStore.Engine

/-!
# The data model over the engine (`store.rs`)

Every operation of `Store` is a program of engine, version-map and clock calls.
`?` on an engine result is the failure of the program, so a failing call ends it.
-/

namespace GameStore

open Lib

/-! ## Opening -/

/-- One record of the metadata scan. -/
def rebuildStep (item : Bytes × Bytes) : StoreM Unit :=
  if item.1.head? ≠ some META_PREFIX then pure ()
  else match Meta.decode item.2 with
    | some m => if m.composite then versionsSet (item.1.drop 1) m.version else pure ()
    | none => pure ()

def rebuildVersionMap : StoreM Unit := do
  versionsClear
  let items ← scanPrefix [META_PREFIX]
  items.foldlM (fun _ item => rebuildStep item) ()

def withEngine : StoreM Unit := do
  installGc
  rebuildVersionMap

/-! ## Metadata -/

def loadMeta (userKey : Bytes) : StoreM (Option Meta) := do
  match ← engineGet (metaKey userKey) with
  | some raw =>
    match Meta.decode raw with
    | some m => pure (some m)
    | none => .err (.corruption "undecodable metadata record")
  | none => pure none

def logicalDelete (userKey : Bytes) : StoreM Unit := do
  engineWrite [.delete (metaKey userKey)]
  versionsRemove userKey

/-- Lazy expiry: the clock is read only when there is a deadline. -/
def loadLiveMeta (userKey : Bytes) : StoreM (Option Meta) := do
  match ← loadMeta userKey with
  | none => pure none
  | some m =>
    if m.expireMs ≠ 0 then do
      let now ← nowMs
      if m.expireMs ≤ now then do
        logicalDelete userKey
        pure none
      else pure (some m)
    else pure (some m)

def loadTyped (userKey : Bytes) (typeId : UInt8) : StoreM (Option Meta) := do
  match ← loadLiveMeta userKey with
  | some m => if m.typeId = typeId then pure (some m) else .err .wrongType
  | none => pure none

def newCompositeMeta (userKey : Bytes) (typeId : UInt8) : StoreM Meta := do
  let version ← nextVersion
  versionsSet userKey version
  pure { typeId := typeId, version := version, expireMs := 0, payload := [] }

/-- The opening of `hset`, `sadd`, `zadd` and `push`: the live metadata of the
type, or fresh metadata with an empty payload of its kind. -/
def loadOrCreate (userKey : Bytes) (typeId : UInt8) (init : Meta → Meta) : StoreM Meta := do
  match ← loadTyped userKey typeId with
  | some m => pure m
  | none => do
    let m ← newCompositeMeta userKey typeId
    pure (init m)

def putMeta (userKey : Bytes) (m : Meta) : StoreM Unit :=
  engineWrite [.put (metaKey userKey) m.encode]

/-! ## Strings and generic keys -/

def set (key value : Bytes) (expireMs : UInt64) : StoreM Unit := do
  versionsRemove key
  let version ← nextVersion
  putMeta key { typeId := TYPE_STRING, version := version, expireMs := expireMs, payload := value }

def get (key : Bytes) : StoreM (Option Bytes) := do
  match ← loadLiveMeta key with
  | none => pure none
  | some m => if m.typeId ≠ TYPE_STRING then .err .wrongType else pure (some m.payload)

def «exists» (key : Bytes) : StoreM Bool := do
  let m ← loadLiveMeta key
  pure m.isSome

def typeOf (key : Bytes) : StoreM String := do
  match ← loadLiveMeta key with
  | some m =>
    pure (if m.typeId = TYPE_STRING then "string"
      else if m.typeId = TYPE_HASH then "hash"
      else if m.typeId = TYPE_SET then "set"
      else if m.typeId = TYPE_ZSET then "zset"
      else if m.typeId = TYPE_LIST then "list"
      else "none")
  | none => pure "none"

def del (key : Bytes) : StoreM Bool := do
  match ← loadLiveMeta key with
  | some _ => do
    logicalDelete key
    pure true
  | none => pure false

def expireAt (key : Bytes) (expireAtMs : UInt64) : StoreM Bool := do
  match ← loadLiveMeta key with
  | some m => do
    putMeta key { m with expireMs := expireAtMs }
    pure true
  | none => pure false

def saturatingSub (a b : UInt64) : UInt64 := if a ≤ b then 0 else a - b

def pttl (key : Bytes) : StoreM ℤ := do
  match ← loadLiveMeta key with
  | none => pure (-2)
  | some m =>
    if m.expireMs = 0 then pure (-1)
    else do
      let now ← nowMs
      pure (saturatingSub m.expireMs now).toInt64.toInt

/-! ## Loops over listed elements

The loops of the element operations carry the stored count (a wrapping `u32`),
the reply and the batch being built. -/

structure Tally where
  count : UInt32
  changed : ℤ
  batch : WriteBatch

/-- A listed element turns out to be new. -/
def Tally.add (t : Tally) (ops : WriteBatch) : Tally :=
  { count := t.count + 1, changed := t.changed + 1, batch := t.batch ++ ops }

/-- A listed element turns out to be there and goes; the count saturates at 0. -/
def Tally.drop (t : Tally) (ops : WriteBatch) : Tally :=
  { count := if t.count = 0 then 0 else t.count - 1, changed := t.changed + 1,
    batch := t.batch ++ ops }

def Tally.note (t : Tally) (ops : WriteBatch) : Tally := { t with batch := t.batch ++ ops }

/-- The end of the removals: nothing to do, the key goes with its last element,
or the count is stored with the deletions. -/
def finishRemoval (key : Bytes) (m : Meta) (t : Tally) : StoreM ℤ := do
  if 0 < t.changed then
    if t.count = 0 then do
      engineWrite t.batch
      logicalDelete key
      pure t.changed
    else do
      engineWrite (t.batch ++ [.put (metaKey key) (m.setFieldCount t.count).encode])
      pure t.changed
  else pure t.changed

/-! ## Hashes -/

def hsetStep (key : Bytes) (version : UInt64) (t : Tally) (pair : Bytes × Bytes) : StoreM Tally := do
  let sk := subkey key version pair.1
  match ← engineGet sk with
  | none => pure (t.add [.put sk pair.2])
  | some _ => pure (t.note [.put sk pair.2])

def hset (key : Bytes) (pairs : List (Bytes × Bytes)) : StoreM ℤ := do
  let m ← loadOrCreate key TYPE_HASH fun m => m.setFieldCount 0
  let t ← pairs.foldlM (hsetStep key m.version) ⟨m.fieldCount, 0, []⟩
  engineWrite (t.batch ++ [.put (metaKey key) (m.setFieldCount t.count).encode])
  pure t.changed

def hget (key field : Bytes) : StoreM (Option Bytes) := do
  match ← loadTyped key TYPE_HASH with
  | some m => engineGet (subkey key m.version field)
  | none => pure none

def hgetall (key : Bytes) : StoreM (List (Bytes × Bytes)) := do
  match ← loadTyped key TYPE_HASH with
  | some m => do
    let pre := subkeyPrefix key m.version
    let items ← scanPrefix pre
    pure (items.map fun item => (item.1.drop pre.length, item.2))
  | none => pure []

/-- Unlike `srem` and `zrem`, `hdel` does not skip a field it has already seen. -/
def hdelStep (key : Bytes) (version : UInt64) (t : Tally) (field : Bytes) : StoreM Tally := do
  let sk := subkey key version field
  match ← engineGet sk with
  | some _ => pure (t.drop [.delete sk])
  | none => pure t

def hdel (key : Bytes) (fields : List Bytes) : StoreM ℤ := do
  match ← loadTyped key TYPE_HASH with
  | some m => do
    let t ← fields.foldlM (hdelStep key m.version) ⟨m.fieldCount, 0, []⟩
    finishRemoval key m t
  | none => pure 0

/-- `HLEN`, `SCARD` and `ZCARD` read the stored count. -/
def storedCount (key : Bytes) (typeId : UInt8) : StoreM ℤ := do
  match ← loadTyped key typeId with
  | some m => pure m.fieldCount.toNat
  | none => pure 0

def hlen (key : Bytes) : StoreM ℤ := storedCount key TYPE_HASH

def hexists (key field : Bytes) : StoreM Bool := do
  let v ← hget key field
  pure v.isSome

/-! ## Sets -/

/-- The first component is the `seen` set of the call. -/
def saddStep (key : Bytes) (version : UInt64) (st : List Bytes × Tally) (member : Bytes) :
    StoreM (List Bytes × Tally) :=
  if member ∈ st.1 then pure st
  else do
    let sk := subkey key version member
    match ← engineGet sk with
    | none => pure (member :: st.1, st.2.add [.put sk []])
    | some _ => pure (member :: st.1, st.2)

def sadd (key : Bytes) (members : List Bytes) : StoreM ℤ := do
  let m ← loadOrCreate key TYPE_SET fun m => m.setFieldCount 0
  let st ← members.foldlM (saddStep key m.version) ([], ⟨m.fieldCount, 0, []⟩)
  if 0 < st.2.changed then do
    engineWrite (st.2.batch ++ [.put (metaKey key) (m.setFieldCount st.2.count).encode])
    pure st.2.changed
  else pure st.2.changed

def sremStep (key : Bytes) (version : UInt64) (st : List Bytes × Tally) (member : Bytes) :
    StoreM (List Bytes × Tally) :=
  if member ∈ st.1 then pure st
  else do
    let sk := subkey key version member
    match ← engineGet sk with
    | some _ => pure (member :: st.1, st.2.drop [.delete sk])
    | none => pure (member :: st.1, st.2)

def srem (key : Bytes) (members : List Bytes) : StoreM ℤ := do
  match ← loadTyped key TYPE_SET with
  | some m => do
    let st ← members.foldlM (sremStep key m.version) ([], ⟨m.fieldCount, 0, []⟩)
    finishRemoval key m st.2
  | none => pure 0

def sismember (key member : Bytes) : StoreM Bool := do
  match ← loadTyped key TYPE_SET with
  | some m => do
    let v ← engineGet (subkey key m.version member)
    pure v.isSome
  | none => pure false

def smembers (key : Bytes) : StoreM (List Bytes) := do
  match ← loadTyped key TYPE_SET with
  | some m => do
    let pre := subkeyPrefix key m.version
    let items ← scanPrefix pre
    pure (items.map fun item => item.1.drop pre.length)
  | none => pure []

def scard (key : Bytes) : StoreM ℤ := storedCount key TYPE_SET

/-! ## Sorted sets -/

def decodeStoredScore (raw : Bytes) : StoreM F64 :=
  if raw.length = 8 then pure (decodeScore raw)
  else .err (.corruption "undecodable zset member score")

/-- A repeated member keeps its place and takes the later score. -/
def upsertScore : List (Bytes × F64) → Bytes → F64 → List (Bytes × F64)
  | [], member, score => [(member, score)]
  | (m, s) :: rest, member, score =>
    if m = member then (m, score) :: rest else (m, s) :: upsertScore rest member score

def effectivePairs (pairs : List (F64 × Bytes)) : List (Bytes × F64) :=
  pairs.foldl (fun eff p => upsertScore eff p.2 p.1) []

def zaddStep (key : Bytes) (version : UInt64) (t : Tally) (p : Bytes × F64) : StoreM Tally := do
  let sk := subkey key version p.1
  let puts : WriteBatch := [.put sk (encodeScore p.2), .put (zscoreKey key version p.2 p.1) []]
  match ← engineGet sk with
  | some oldRaw => do
    let oldScore ← decodeStoredScore oldRaw
    if oldScore.eq p.2 then pure t
    else pure (t.note (.delete (zscoreKey key version oldScore p.1) :: puts))
  | none => pure (t.add puts)

def zadd (key : Bytes) (pairs : List (F64 × Bytes)) : StoreM ℤ := do
  let m ← loadOrCreate key TYPE_ZSET fun m => m.setFieldCount 0
  let t ← (effectivePairs pairs).foldlM (zaddStep key m.version) ⟨m.fieldCount, 0, []⟩
  if t.batch.isEmpty then pure t.changed
  else do
    engineWrite (t.batch ++ [.put (metaKey key) (m.setFieldCount t.count).encode])
    pure t.changed

def zscore (key member : Bytes) : StoreM (Option F64) := do
  match ← loadTyped key TYPE_ZSET with
  | some m => do
    match ← engineGet (subkey key m.version member) with
    | some raw => do
      let score ← decodeStoredScore raw
      pure (some score)
    | none => pure none
  | none => pure none

def zremStep (key : Bytes) (version : UInt64) (st : List Bytes × Tally) (member : Bytes) :
    StoreM (List Bytes × Tally) :=
  if member ∈ st.1 then pure st
  else do
    let sk := subkey key version member
    match ← engineGet sk with
    | some raw => do
      let score ← decodeStoredScore raw
      pure (member :: st.1, st.2.drop [.delete sk, .delete (zscoreKey key version score member)])
    | none => pure (member :: st.1, st.2)

def zrem (key : Bytes) (members : List Bytes) : StoreM ℤ := do
  match ← loadTyped key TYPE_ZSET with
  | some m => do
    let st ← members.foldlM (zremStep key m.version) ([], ⟨m.fieldCount, 0, []⟩)
    finishRemoval key m st.2
  | none => pure 0

def zcard (key : Bytes) : StoreM ℤ := storedCount key TYPE_ZSET

/-- Clamped offsets of an inclusive range with negative indexes from the end. -/
def normalizeRange (start stop len : Int64) : Option (ℕ × ℕ) :=
  if len ≤ 0 then none
  else
    let lo := max (if start < 0 then start + len else start) 0
    let hi := min (if stop < 0 then stop + len else stop) (len - 1)
    if hi < lo then none else some (lo.toUInt64.toNat, hi.toUInt64.toNat)

def splitSuffix (plen : ℕ) (key : Bytes) : StoreM (Bytes × F64) :=
  match splitScoreSuffix (key.drop plen) with
  | some (score, member) => pure (member, score)
  | none => .err (.corruption "undecodable zset score index")

def zrangeLoop (plen lo hi : ℕ) : ℕ → List (Bytes × Bytes) → StoreM (List (Bytes × F64))
  | _, [] => pure []
  | rank, item :: rest =>
    if rank < lo then zrangeLoop plen lo hi (rank + 1) rest
    else if hi < rank then pure []
    else do
      let entry ← splitSuffix plen item.1
      let out ← zrangeLoop plen lo hi (rank + 1) rest
      pure (entry :: out)

def zrange (key : Bytes) (start stop : Int64) : StoreM (List (Bytes × F64)) := do
  match ← loadTyped key TYPE_ZSET with
  | some m =>
    match normalizeRange start stop (Int64.ofNat m.fieldCount.toNat) with
    | none => pure []
    | some (lo, hi) => do
      let pre := zscorePrefix key m.version
      let items ← scanPrefix pre
      zrangeLoop pre.length lo hi 0 items
  | none => pure []

/-- The scan stops at the first score above the range. -/
def zrangeByScoreLoop (plen : ℕ) (min : F64) (minExclusive : Bool) (max : F64) (maxExclusive : Bool) :
    List (Bytes × Bytes) → StoreM (List (Bytes × F64))
  | [] => pure []
  | item :: rest => do
    let entry ← splitSuffix plen item.1
    if max.lt entry.2 || (maxExclusive && entry.2.eq max) then pure []
    else if entry.2.lt min || (minExclusive && entry.2.eq min) then
      zrangeByScoreLoop plen min minExclusive max maxExclusive rest
    else do
      let out ← zrangeByScoreLoop plen min minExclusive max maxExclusive rest
      pure (entry :: out)

def zrangeByScore (key : Bytes) (min : F64) (minExclusive : Bool) (max : F64) (maxExclusive : Bool) :
    StoreM (List (Bytes × F64)) := do
  match ← loadTyped key TYPE_ZSET with
  | some m => do
    let pre := zscorePrefix key m.version
    let items ← scanPrefix pre
    zrangeByScoreLoop pre.length min minExclusive max maxExclusive items
  | none => pure []

/-! ## Lists -/

def badBounds : EngineError := .corruption "undecodable list bounds"

def elementKey (key : Bytes) (version index : UInt64) : Bytes :=
  subkey key version (listIndexField index)

structure Ends where
  head : UInt64
  tail : UInt64
  batch : WriteBatch

def pushStep (key : Bytes) (version : UInt64) (left : Bool) (e : Ends) (value : Bytes) : Ends :=
  if left then
    ⟨e.head - 1, e.tail, e.batch ++ [.put (elementKey key version (e.head - 1)) value]⟩
  else
    ⟨e.head, e.tail + 1, e.batch ++ [.put (elementKey key version e.tail) value]⟩

/-- `(tail - head) as i64`. -/
def listLen (head tail : UInt64) : Int64 := (tail - head).toInt64

def push (key : Bytes) (values : List Bytes) (left : Bool) : StoreM ℤ := do
  let m ← loadOrCreate key TYPE_LIST fun m =>
    m.setListBounds LIST_INITIAL_INDEX LIST_INITIAL_INDEX
  match m.listBounds with
  | none => .err badBounds
  | some (head, tail) => do
    let e := values.foldl (pushStep key m.version left) ⟨head, tail, []⟩
    engineWrite (e.batch ++ [.put (metaKey key) (m.setListBounds e.head e.tail).encode])
    pure (listLen e.head e.tail).toInt

def readElement (key : Bytes) (version index : UInt64) : StoreM Bytes := do
  match ← engineGet (elementKey key version index) with
  | some value => pure value
  | none => .err (.corruption "missing list element record")

/-- The pop loop, counting down the elements still wanted. -/
def popLoop (key : Bytes) (version : UInt64) (left : Bool) : ℕ → Ends → List Bytes →
    StoreM (Ends × List Bytes)
  | 0, e, out => pure (e, out)
  | n + 1, e, out =>
    if e.head < e.tail then do
      let index := if left then e.head else e.tail - 1
      let value ← readElement key version index
      let ops := e.batch ++ [.delete (elementKey key version index)]
      popLoop key version left n
        (if left then ⟨e.head + 1, e.tail, ops⟩ else ⟨e.head, e.tail - 1, ops⟩) (out ++ [value])
    else pure (e, out)

def pop (key : Bytes) (count : ℕ) (left : Bool) : StoreM (List Bytes) := do
  match ← loadTyped key TYPE_LIST with
  | none => pure []
  | some m =>
    match m.listBounds with
    | none => .err badBounds
    | some (head, tail) => do
      let (e, out) ← popLoop key m.version left count ⟨head, tail, []⟩ []
      if out.isEmpty then pure out
      else if e.head = e.tail then do
        engineWrite e.batch
        logicalDelete key
        pure out
      else do
        engineWrite (e.batch ++ [.put (metaKey key) (m.setListBounds e.head e.tail).encode])
        pure out

def lrange (key : Bytes) (start stop : Int64) : StoreM (List Bytes) := do
  match ← loadTyped key TYPE_LIST with
  | none => pure []
  | some m =>
    match m.listBounds with
    | none => .err badBounds
    | some (head, tail) =>
      match normalizeRange start stop (listLen head tail) with
      | none => pure []
      | some (lo, hi) =>
        (List.range' lo (hi - lo + 1)).foldlM (fun out offset => do
          let value ← readElement key m.version (head + UInt64.ofNat offset)
          pure (out ++ [value])) []

def llen (key : Bytes) : StoreM ℤ := do
  match ← loadTyped key TYPE_LIST with
  | some m =>
    match m.listBounds with
    | some (head, tail) => pure (listLen head tail).toInt
    | none => pure 0
  | none => pure 0

/-! ## The whole store -/

def dbsize : StoreM ℤ := do
  let items ← scanPrefix [META_PREFIX]
  pure items.length

def rawSubkeyCount : StoreM ℤ := do
  let subkeys ← scanPrefix [SUBKEY_PREFIX]
  let scores ← scanPrefix [ZSCORE_PREFIX]
  pure (subkeys.length + scores.length)

def compact : StoreM Unit := compactRange

def flushAll : StoreM Unit := do
  let metas ← scanPrefix [META_PREFIX]
  let subkeys ← scanPrefix [SUBKEY_PREFIX]
  let scores ← scanPrefix [ZSCORE_PREFIX]
  engineWrite ((metas ++ subkeys ++ scores).map fun item => .delete item.1)
  versionsClear

end GameStore
