import GameStore.Lib.Table
import GameStore.Counters
import GameStore.Deadlines

/-!
# The keyspace a client sees

What the store is for, without records, versions, counters or list indexes: a finite
map from keys to values of five types, each with a deadline, in which an entry past
its deadline goes when its key is next used. Every operation is a function of the
key's entry and of the clock.
-/

namespace GameStore

open Lib Std

abbrev Table (α : Type) := ExtTreeMap Bytes α

inductive Value
  | string (bytes : Bytes)
  | hash (fields : Table Bytes)
  | set (members : Table Unit)
  | zset (scores : Table F64)
  | list (elements : List Bytes)

structure Entry where
  value : Value
  /-- The deadline, `0` for none. -/
  expireMs : UInt64

def Entry.live (now : UInt64) (e : Entry) : Bool := e.expireMs = 0 || !decide (e.expireMs ≤ now)

/-- The name `TYPE` gives to the type of a value. -/
def Value.typeName : Value → String
  | .string _ => "string"
  | .hash _ => "hash"
  | .set _ => "set"
  | .zset _ => "zset"
  | .list _ => "list"

def Value.typeId : Value → UInt8
  | .string _ => TYPE_STRING
  | .hash _ => TYPE_HASH
  | .set _ => TYPE_SET
  | .zset _ => TYPE_ZSET
  | .list _ => TYPE_LIST

/-! ## Collections -/

/-- One type of collection: its values, what a missing key counts as, and how many
elements there are. A key with none is not there. -/
structure Collection (α : Type) where
  get : Value → Option α
  put : α → Value
  empty : α
  size : α → ℕ

def hashes : Collection (Table Bytes) where
  get := fun | .hash h => some h | _ => none
  put := .hash
  empty := ∅
  size h := h.size

def sets : Collection (Table Unit) where
  get := fun | .set s => some s | _ => none
  put := .set
  empty := ∅
  size s := s.size

def zsets : Collection (Table F64) where
  get := fun | .zset z => some z | _ => none
  put := .zset
  empty := ∅
  size z := z.size

def lists : Collection (List Bytes) where
  get := fun | .list l => some l | _ => none
  put := .list
  empty := []
  size l := l.length

/-- A reply, and the key's entry afterwards. -/
abbrev Effect := Except EngineError Reply × Option Entry

section Collection

variable {α : Type} (c : Collection α)

def Collection.entry (a : α) (expireMs : UInt64) : Option Entry :=
  if c.size a = 0 then none else some ⟨c.put a, expireMs⟩

def Collection.query (e : Option Entry) (f : α → Reply) : Effect :=
  match e with
  | none => (.ok (f c.empty), none)
  | some entry =>
    match c.get entry.value with
    | some a => (.ok (f a), some entry)
    | none => (.error .wrongType, some entry)

/-- The reply may depend on the value before and after; the deadline stays. -/
def Collection.update (e : Option Entry) (f : α → α) (reply : α → α → Reply) : Effect :=
  match e with
  | none => (.ok (reply c.empty (f c.empty)), c.entry (f c.empty) 0)
  | some entry =>
    match c.get entry.value with
    | some a => (.ok (reply a (f a)), c.entry (f a) entry.expireMs)
    | none => (.error .wrongType, some entry)

end Collection

/-- How many elements came. -/
def grown {α : Type} (before after : Table α) : Reply := .int (after.size - before.size)

def shrunk {α : Type} (before after : Table α) : Reply := .int (before.size - after.size)

/-- Each listed member gets the last score listed for it, unless it has a score equal to it. -/
def scoreAll (z : Table F64) (pairs : List (F64 × Bytes)) : Table F64 :=
  insertAll z (pairs.map fun p => (p.2, newScore z[p.2]? p.1))

/-- By score, the negative zero before the positive one, and then by member. -/
def rankLe (a b : Bytes × F64) : Bool :=
  a.2.place < b.2.place || (a.2.place = b.2.place && (compare a.1 b.1).isLE)

def ranked (z : Table F64) : List (Bytes × F64) := z.toList.mergeSort rankLe

/-! ## Operations -/

/-- What is left of the time to a deadline, as `PTTL` gives it. -/
def timeLeft (later expireMs : UInt64) : ℤ :=
  if expireMs = 0 then -1 else (saturatingSub expireMs later).toInt64.toInt

/-- The reply to an operation and what it leaves, from the entry of its key that is alive
when it starts; `later` is the clock after that. -/
def KeyOp.outcome (later : UInt64) (e : Option Entry) : KeyOp → Effect
  | .set value expireMs => (.ok .unit, some ⟨.string value, expireMs⟩)
  | .get =>
    match e with
    | none => (.ok (.value none), none)
    | some ⟨.string bytes, expireMs⟩ => (.ok (.value (some bytes)), some ⟨.string bytes, expireMs⟩)
    | some entry => (.error .wrongType, some entry)
  | .exists => (.ok (.bool e.isSome), e)
  | .typeOf => (.ok (.text (e.elim "none" fun entry => entry.value.typeName)), e)
  | .del => (.ok (.bool e.isSome), none)
  | .expireAt expireAtMs => (.ok (.bool e.isSome), e.map fun entry => ⟨entry.value, expireAtMs⟩)
  | .pttl => (.ok (.int (e.elim (-2) fun entry => timeLeft later entry.expireMs)), e)
  | .hset pairs => hashes.update e (insertAll · pairs) grown
  | .hget field => hashes.query e fun h => .value h[field]?
  | .hgetall => hashes.query e fun h => .pairs h.toList
  | .hdel fields => hashes.update e (eraseAll · fields) shrunk
  | .hlen => hashes.query e fun h => .int h.size
  | .hexists field => hashes.query e fun h => .bool h[field]?.isSome
  | .sadd members => sets.update e (insertAll · (members.map (·, ()))) grown
  | .srem members => sets.update e (eraseAll · members) shrunk
  | .sismember member => sets.query e fun s => .bool s[member]?.isSome
  | .smembers => sets.query e fun s => .values s.keys
  | .scard => sets.query e fun s => .int s.size
  | .zadd pairs => zsets.update e (scoreAll · pairs) grown
  | .zscore member => zsets.query e fun z => .score z[member]?
  | .zrem members => zsets.update e (eraseAll · members) shrunk
  | .zcard => zsets.query e fun z => .int z.size
  | .zrange start stop => zsets.query e fun z => .scored (selected start stop (ranked z))
  | .zrangeByScore min minExclusive max maxExclusive => zsets.query e fun z =>
      .scored ((ranked z).filter fun p => within min minExclusive max maxExclusive p.2)
  | .push values left => lists.update e (values.foldl (pushOne left)) fun _ l => .int l.length
  | .pop count left => lists.update e (dropEnd left · count) fun l _ => .values (takeEnd left l count)
  | .lrange start stop => lists.query e fun l => .values (selected start stop l)
  | .llen => lists.query e fun l => .int l.length

abbrev Keyspace := ExtTreeMap Bytes Entry

def Keyspace.put (ks : Keyspace) (k : Bytes) : Option Entry → Keyspace
  | none => ks.erase k
  | some e => ks.insert k e

theorem Keyspace.getElem?_put (ks : Keyspace) (k key : Bytes) (e : Option Entry) :
    (ks.put k e)[key]? = if k = key then e else ks[key]? := by
  cases e with
  | none => exact getElem?_erase_bytes ks k key
  | some e => exact getElem?_insert_bytes ks k key e

/-- The clock when an operation looks whether its key is alive, and after that. -/
structure Moment where
  now : UInt64
  later : UInt64

/-- The entry of a key, unless its deadline has come. -/
def Keyspace.alive (ks : Keyspace) (now : UInt64) (k : Bytes) : Option Entry := ks[k]?.filter (Entry.live now)

/-- The reply to an operation, if it is one about the keyspace, and the keyspace after it.
`RAWCOUNT` counts records, stale ones with them. -/
def Keyspace.step (ks : Keyspace) (t : Moment) : Op → Option (Except EngineError Reply) × Keyspace
  | .keyed key op =>
    let out := op.outcome t.later (ks.alive t.now key.1)
    (some out.1, ks.put key.1 out.2)
  | .dbsize => (some (.ok (.int ks.size)), ks)
  | .rawSubkeyCount => (none, ks)
  | .compact => (some (.ok .unit), ks)
  | .flushAll => (some (.ok .unit), ∅)

/-- The replies of the keyspace to a list of operations, each at its moment. -/
def Keyspace.replies (ks : Keyspace) : List (Moment × Op) → List (Option (Except EngineError Reply))
  | [] => []
  | (t, op) :: rest => (ks.step t op).1 :: Keyspace.replies (ks.step t op).2 rest

/-- The keyspace after a list of operations. -/
def Keyspace.after (ks : Keyspace) (ops : List (Moment × Op)) : Keyspace :=
  ops.foldl (fun ks p => (ks.step p.1 p.2).2) ks

/-! ## What the store can hold -/

/-- The elements that the store keeps a count of, in 32 bits. -/
def Value.counter : Value → ℕ
  | .hash h => h.size
  | .set s => s.size
  | .zset z => z.size
  | _ => 0

def Value.Fits (v : Value) : Prop := v.counter < 2 ^ 32

def Keyspace.Fits (ks : Keyspace) : Prop := ∀ (k : Bytes) (e : Entry), ks[k]? = some e → e.value.Fits

/-- The collections stay below `2 ^ 32` elements. -/
def Keyspace.StaysSmall (ks : Keyspace) : List (Moment × Op) → Prop
  | [] => True
  | (t, op) :: rest => (ks.step t op).2.Fits ∧ Keyspace.StaysSmall (ks.step t op).2 rest

section Counter

variable {later : UInt64} {e : Option Entry}

/-- The store keeps the number of elements of a collection. -/
structure Collection.Counted {α : Type} (c : Collection α) : Prop where
  put : ∀ a, (c.put a).counter = c.size a
  get : ∀ v a, c.get v = some a → v.counter = c.size a
  empty : c.size c.empty = 0

theorem hashes_counted : hashes.Counted where
  put _ := rfl
  get v h hv := by
    cases v with
    | hash fields => rw [← Option.some.inj hv]; rfl
    | _ => cases hv
  empty := rfl

theorem sets_counted : sets.Counted where
  put _ := rfl
  get v s hv := by
    cases v with
    | set members => rw [← Option.some.inj hv]; rfl
    | _ => cases hv
  empty := rfl

theorem zsets_counted : zsets.Counted where
  put _ := rfl
  get v z hv := by
    cases v with
    | zset scores => rw [← Option.some.inj hv]; rfl
    | _ => cases hv
  empty := rfl

theorem Collection.query_snd {α : Type} (c : Collection α) (e : Option Entry) (f : α → Reply) :
    (c.query e f).2 = e := by
  cases e with
  | none => rfl
  | some entry =>
    rw [Collection.query]
    cases c.get entry.value <;> rfl

/-- A collection grows by no more than what is listed. -/
theorem Collection.Counted.update {α : Type} {c : Collection α} (hc : c.Counted) {f : α → α} {n : ℕ}
    (hf : ∀ a, c.size (f a) ≤ c.size a + n) {reply : α → α → Reply} {e' : Entry}
    (he' : (c.update e f reply).2 = some e') :
    e'.value.counter ≤ e.elim 0 (fun entry => entry.value.counter) + n := by
  have hentry : ∀ a t, c.entry (f a) t = some e' → e'.value.counter ≤ c.size a + n := by
    intro a t ha
    rw [Collection.entry] at ha
    split at ha
    · cases ha
    · rw [← Option.some.inj ha, hc.put]
      exact hf a
  cases e with
  | none =>
    have h0 := hentry c.empty 0 he'
    rw [hc.empty] at h0
    exact h0
  | some entry =>
    rw [Collection.update] at he'
    cases ha : c.get entry.value with
    | none =>
      rw [ha] at he'
      rw [← Option.some.inj he']
      exact Nat.le_add_right _ _
    | some a =>
      rw [ha] at he'
      have hsize := hentry a _ he'
      rw [← hc.get entry.value a ha] at hsize
      exact hsize

theorem size_insertAll_le {α : Type} (m : Table α) (l : List (Bytes × α)) :
    (insertAll m l).size ≤ m.size + l.length := by
  rw [size_insertAll]
  have hnew : ((l.map Prod.fst).toFinset \ keySet m).card ≤ (l.map Prod.fst).toFinset.card :=
    Finset.card_le_card Finset.sdiff_subset
  have hlisted := List.toFinset_card_le (l.map Prod.fst)
  rw [List.length_map] at hlisted
  omega

theorem size_eraseAll_le {α : Type} (m : Table α) (l : List Bytes) : (eraseAll m l).size ≤ m.size + 0 := by
  have hsize := size_eraseAll m l
  omega

/-- Of a list the store keeps its two ends. -/
theorem counter_lists_update {f : List Bytes → List Bytes} {reply : List Bytes → List Bytes → Reply} {e' : Entry}
    (he' : (lists.update e f reply).2 = some e') (n : ℕ) :
    e'.value.counter ≤ e.elim 0 (fun entry => entry.value.counter) + n := by
  have hentry : ∀ l t, lists.entry l t = some e' → e'.value.counter = 0 := by
    intro l t h
    rw [Collection.entry] at h
    split at h
    · cases h
    · rw [← Option.some.inj h]
      rfl
  cases e with
  | none =>
    rw [hentry _ _ he']
    exact Nat.zero_le _
  | some entry =>
    rw [Collection.update] at he'
    cases hl : lists.get entry.value with
    | none =>
      rw [hl] at he'
      rw [← Option.some.inj he']
      exact Nat.le_add_right _ _
    | some l =>
      rw [hl] at he'
      rw [hentry _ _ he']
      exact Nat.zero_le _

theorem KeyOp.counter_outcome {op : KeyOp} {e' : Entry} (he' : (op.outcome later e).2 = some e') :
    e'.value.counter ≤ e.elim 0 (fun entry => entry.value.counter) + op.listed := by
  have hsame : (op.outcome later e).2 = e → e'.value.counter ≤
      e.elim 0 (fun entry => entry.value.counter) + op.listed := by
    intro h
    rw [h] at he'
    rw [he']
    exact Nat.le_add_right _ _
  cases op with
  | set value expireMs =>
    rw [← Option.some.inj he']
    exact Nat.zero_le _
  | get =>
    cases e with
    | none => exact hsame rfl
    | some entry =>
      obtain ⟨v, expireMs⟩ := entry
      cases v <;> exact hsame rfl
  | «exists» => exact hsame rfl
  | typeOf => exact hsame rfl
  | pttl => exact hsame rfl
  | del => cases he'
  | expireAt deadline =>
    obtain ⟨entry, he, rfl⟩ := Option.map_eq_some_iff.mp he'
    rw [he]
    exact Nat.le_add_right _ _
  | hset pairs => exact hashes_counted.update (fun h => size_insertAll_le h pairs) he'
  | hdel fields => exact hashes_counted.update (fun h => size_eraseAll_le h fields) he'
  | sadd members =>
    refine sets_counted.update (fun s => ?_) he'
    have hsize := size_insertAll_le s (members.map (·, ()))
    rw [List.length_map] at hsize
    exact hsize
  | srem members => exact sets_counted.update (fun s => size_eraseAll_le s members) he'
  | zadd pairs =>
    refine zsets_counted.update (fun z => ?_) he'
    have hsize := size_insertAll_le z (pairs.map fun p => (p.2, newScore z[p.2]? p.1))
    rw [List.length_map] at hsize
    exact hsize
  | zrem members => exact zsets_counted.update (fun z => size_eraseAll_le z members) he'
  | push values left => exact counter_lists_update he' _
  | pop count left => exact counter_lists_update he' _
  | _ => exact hsame (Collection.query_snd _ _ _)

end Counter

def Op.listed : Op → ℕ
  | .keyed _ op => op.listed
  | _ => 0

theorem Keyspace.counter_step {ks : Keyspace} {n : ℕ} (h : ∀ (k : Bytes) e, ks[k]? = some e → e.value.counter ≤ n)
    (t : Moment) (op : Op) (k : Bytes) (e : Entry) (he : (ks.step t op).2[k]? = some e) :
    e.value.counter ≤ n + op.listed := by
  cases op with
  | keyed key op =>
    change (ks.put key.1 _)[k]? = some e at he
    rw [Keyspace.getElem?_put] at he
    split at he
    · have hle := KeyOp.counter_outcome he
      cases ha : ks.alive t.now key.1 with
      | none =>
        rw [ha] at hle
        exact hle.trans (Nat.add_le_add_right (Nat.zero_le n) _)
      | some entry =>
        rw [ha] at hle
        have hentry := h key.1 entry (Option.filter_eq_some_iff.mp ha).1
        exact hle.trans (Nat.add_le_add_right hentry _)
    · exact (h k e he).trans (Nat.le_add_right _ _)
  | flushAll =>
    change (∅ : Keyspace)[k]? = some e at he
    rw [ExtTreeMap.getElem?_empty] at he
    cases he
  | _ => exact h k e he

/-- Fewer than `2 ^ 32` elements listed in all are few enough. -/
theorem staysSmall_of_listed {ops : List (Moment × Op)} {ks : Keyspace} {n : ℕ}
    (h : ∀ (k : Bytes) e, ks[k]? = some e → e.value.counter ≤ n)
    (hops : n + (ops.map fun q => q.2.listed).sum < 2 ^ 32) : ks.StaysSmall ops := by
  induction ops generalizing ks n with
  | nil => trivial
  | cons q ops ih =>
    rw [List.map_cons, List.sum_cons] at hops
    have hstep := Keyspace.counter_step h q.1 q.2
    refine ⟨fun k e he => ?_, ih hstep (by omega)⟩
    have hle := hstep k e he
    change e.value.counter < 2 ^ 32
    omega

end GameStore
