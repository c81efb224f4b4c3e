import GameStore.Keyspace

/-!
# How the disk holds an entry

A key's metadata and the records under its version, against the entry of the keyspace.
Each operation that finds its key held as an entry replies as the keyspace does and
leaves the key held as the entry the keyspace has next.
-/

namespace GameStore

open Lib Std

/-- The metadata `m` goes with the fields `h`. -/
structure HashMeta (d : Disk) (k : Bytes) (m : Meta) (h : Table Bytes) : Prop where
  typed : m.typeId = TYPE_HASH
  counted : m.fieldCount.toNat = h.size
  records : ∀ f, d[subkey k m.version f]? = h[f]?

/-- The metadata `m` and the records under its version are those of a value; `pushes`
bounds how often a list has been pushed to. -/
def Holds (pushes : ℕ) (d : Disk) (k : Bytes) (m : Meta) : Value → Prop
  | .string bytes => m.typeId = TYPE_STRING ∧ m.payload = bytes
  | .hash h => HashMeta d k m h
  | .set s => SetMeta d k m (keySet s)
  | .zset z => ZSetMeta d k m (z[·]?) ∧ Numeric (z[·]?)
  | .list l => ∃ p ≤ pushes, ListMeta d k m l p

/-- A collection has elements. -/
def Value.Filled : Value → Prop
  | .string _ => True
  | .hash h => 0 < h.size
  | .set s => 0 < s.size
  | .zset z => 0 < z.size
  | .list l => 0 < l.length

/-- What the disk has for a key is the entry, or nothing. -/
def Represents (pushes : ℕ) (d : Disk) (k : Bytes) : Option Entry → Prop
  | none => d[metaKey k]? = none
  | some e => k.length < 2 ^ 32 ∧ e.value.Filled ∧
      ∃ m, readMeta d k = some m ∧ m.expireMs = e.expireMs ∧ Holds pushes d k m e.value

section Holds

variable {p p' : ℕ} {d d' : Disk} {k : Bytes} {m : Meta} {v : Value} {e : Option Entry}

theorem Holds.typeId (h : Holds p d k m v) : m.typeId = v.typeId := by
  cases v with
  | string bytes => exact h.1
  | hash fields => exact h.typed
  | set members => exact h.typed
  | zset scores => exact h.1.typed
  | list elements =>
    obtain ⟨q, -, hl⟩ := h
    exact hl.typed

theorem Holds.mono (hp : p ≤ p') (h : Holds p d k m v) : Holds p' d k m v := by
  cases v with
  | list elements =>
    obtain ⟨q, hq, hl⟩ := h
    exact ⟨q, hq.trans hp, hl⟩
  | _ => exact h

theorem Holds.congr (hk : k.length < 2 ^ 32) (hd : ∀ raw, RecordOf k m.version raw → d'[raw]? = d[raw]?)
    (h : Holds p d k m v) : Holds p d' k m v := by
  have hmembers : members d' k m.version = members d k m.version := members_congr hk hd
  cases v with
  | string bytes => exact h
  | hash fields =>
    exact ⟨h.typed, h.counted, fun f => (hd _ (parseOwnerVersion_subkey hk _ f)).trans (h.records f)⟩
  | set members => exact ⟨h.typed, h.counted, hmembers.trans h.records⟩
  | zset scores =>
    exact ⟨⟨h.1.typed, dualRecords_congr hk hd h.1.dual, hmembers ▸ h.1.counted⟩, h.2⟩
  | list elements =>
    obtain ⟨q, hq, hl⟩ := h
    obtain ⟨head, tail, hb, hs, hends⟩ := hl.ends
    exact ⟨q, hq, hl.typed, ⟨head, tail, hb, hs.congr hk hd, hends⟩, hl.size⟩

/-- The deadline plays no part. -/
theorem Holds.expire (h : Holds p d k m v) (t : UInt64) : Holds p d k { m with expireMs := t } v := by
  cases v with
  | string bytes => exact h
  | hash fields => exact ⟨h.typed, h.counted, h.records⟩
  | set members => exact ⟨h.typed, h.counted, h.records⟩
  | zset scores => exact ⟨⟨h.1.typed, h.1.dual, h.1.counted⟩, h.2⟩
  | list elements =>
    obtain ⟨q, hq, hl⟩ := h
    exact ⟨q, hq, hl.typed, hl.ends, hl.size⟩

theorem Represents.mono (hp : p ≤ p') (h : Represents p d k e) : Represents p' d k e := by
  cases e with
  | none => exact h
  | some e =>
    obtain ⟨hk, hf, m, hm, he, hv⟩ := h
    exact ⟨hk, hf, m, hm, he, hv.mono hp⟩

/-- A key is represented by its metadata and its live records. -/
theorem Represents.congr (hmeta : d'[metaKey k]? = d[metaKey k]?)
    (hd : ∀ m, readMeta d k = some m → m.composite → ∀ raw, RecordOf k m.version raw → d'[raw]? = d[raw]?)
    (h : Represents p d k e) : Represents p d' k e := by
  cases e with
  | none => exact hmeta.trans h
  | some e =>
    obtain ⟨hk, hf, m, hm, he, hv⟩ := h
    refine ⟨hk, hf, m, (readMeta_congr hmeta).trans hm, he, ?_⟩
    by_cases hc : m.composite
    · exact hv.congr hk (hd m hm hc)
    · cases hval : e.value with
      | string bytes =>
        rw [hval] at hv
        exact hv
      | _ =>
        refine absurd (composite_of_type ?_) hc
        rw [hv.typeId, hval]
        simp [Value.typeId]

end Holds

/-! ## A key that is alive or absent -/

section Alive

variable {p : ℕ} {w : World} {k : Bytes} {ks : Keyspace}

/-- A key without a live entry is absent. -/
theorem Represents.absent (h : Represents p w.disk k ks[k]?) (ha : ks.alive w.ms.head k = none) : w.Absent k := by
  rw [Keyspace.alive] at ha
  cases he : ks[k]? with
  | none =>
    rw [he] at h
    exact .inl h
  | some e =>
    rw [he] at h ha
    obtain ⟨-, -, m, hm, hexp, -⟩ := h
    refine .inr ⟨m, hm, ?_⟩
    rw [hexp]
    simpa [Entry.live] using ha

/-- A live entry is that of live metadata. -/
theorem Represents.live (h : Represents p w.disk k ks[k]?) {e : Entry} (ha : ks.alive w.ms.head k = some e) :
    e.value.Filled ∧ ∃ m, w.liveMeta k = some m ∧ m.expireMs = e.expireMs ∧ Holds p w.disk k m e.value := by
  obtain ⟨he, hlive⟩ := Option.filter_eq_some_iff.mp ha
  rw [he] at h
  obtain ⟨-, hf, m, hm, hexp, hv⟩ := h
  refine ⟨hf, m, ?_, hexp, hv⟩
  rw [Entry.live, ← hexp] at hlive
  rw [World.liveMeta, hm]
  exact Option.filter_eq_some_iff.mpr ⟨rfl, hlive⟩

end Alive

/-- The operation replies as the effect says, and leaves its key as it says. -/
structure Realizes (p : ℕ) (w : World) (key : Key) (op : KeyOp) (out : Effect) : Prop where
  reply : ((Op.keyed key op).run w).1 = out.1
  left : Represents p ((Op.keyed key op).run w).2.disk key.1 out.2

/-! ## Reads -/

theorem ranked_empty : ranked ∅ = [] := by
  have hnil : (∅ : Table F64).toList = [] := by simp
  rw [ranked, hnil, List.mergeSort_nil]

theorem KeyOp.outcome_absent {op : KeyOp} (hop : op.isRead) (later : UInt64) :
    op.outcome later none = (.ok op.absentReply, none) := by
  cases op with
  | zrange start stop =>
    change (Except.ok (Reply.scored (selected start stop (ranked ∅))), (none : Option Entry)) = _
    rw [ranked_empty]
    rfl
  | zrangeByScore min minExclusive max maxExclusive =>
    change (Except.ok (Reply.scored ((ranked ∅).filter _)), (none : Option Entry)) = _
    rw [ranked_empty]
    rfl
  | hgetall => simp [KeyOp.outcome, Collection.query, hashes, KeyOp.absentReply]
  | hget field => simp [KeyOp.outcome, Collection.query, hashes, KeyOp.absentReply]
  | hlen => simp [KeyOp.outcome, Collection.query, hashes, KeyOp.absentReply]
  | hexists field => simp [KeyOp.outcome, Collection.query, hashes, KeyOp.absentReply]
  | sismember member => simp [KeyOp.outcome, Collection.query, sets, KeyOp.absentReply]
  | smembers => simp [KeyOp.outcome, Collection.query, sets, KeyOp.absentReply]
  | scard => simp [KeyOp.outcome, Collection.query, sets, KeyOp.absentReply]
  | zscore member => simp [KeyOp.outcome, Collection.query, zsets, KeyOp.absentReply]
  | zcard => simp [KeyOp.outcome, Collection.query, zsets, KeyOp.absentReply]
  | lrange start stop => rfl
  | llen => rfl
  | get => rfl
  | «exists» => rfl
  | typeOf => rfl
  | pttl => rfl
  | _ => cases hop

section Reads

variable {p : ℕ} {w : World} {key : Key} {op : KeyOp}

/-- A read of an absent key leaves nothing. -/
theorem run_read_gone (hop : op.isRead) (habs : w.Absent key.1) :
    ((Op.keyed key op).run w).2.disk[metaKey key.1]? = none := by
  cases op with
  | get => exact run_live_gone habs _ _ rfl
  | «exists» => exact run_live_gone habs _ _ rfl
  | typeOf => exact run_live_gone habs _ _ rfl
  | pttl => exact run_live_gone habs _ _ rfl
  | hexists field =>
    rw [Op.run, Op.prog, KeyOp.prog, GameStore.hexists, GameStore.hget, Prog.bind_assoc]
    exact run_typed_gone habs _ _ rfl
  | hget field => exact run_typed_gone habs _ _ rfl
  | hgetall => exact run_typed_gone habs _ _ rfl
  | hlen => exact run_typed_gone habs _ _ rfl
  | sismember member => exact run_typed_gone habs _ _ rfl
  | smembers => exact run_typed_gone habs _ _ rfl
  | scard => exact run_typed_gone habs _ _ rfl
  | zscore member => exact run_typed_gone habs _ _ rfl
  | zcard => exact run_typed_gone habs _ _ rfl
  | zrange start stop => exact run_typed_gone habs _ _ rfl
  | zrangeByScore min minExclusive max maxExclusive => exact run_typed_gone habs _ _ rfl
  | lrange start stop => exact run_typed_gone habs _ _ rfl
  | llen => exact run_typed_gone habs _ _ rfl
  | _ => cases hop

/-- A read of a live key leaves everything. -/
theorem run_read_kept (hop : op.isRead) {m : Meta} (hlive : w.liveMeta key.1 = some m) :
    ((Op.keyed key op).run w).2.disk = w.disk := by
  obtain ⟨ph, hph, hs⟩ := op.run_stage key w
  have hempties : ¬ (op.allowed (NewVersion key.1 w)).empties := by
    cases op <;> first | exact id | cases hop
  have hleaves : ¬ (op.allowed (NewVersion key.1 w)).leaves := by
    cases op <;> first | exact id | cases hop
  cases ph with
  | start => exact congrArg (fun s : World => s.disk) hs
  | live m => exact congrArg Store.disk hs.2.2
  | absent =>
    rw [hs.1.liveMeta_eq] at hlive
    cases hlive
  | done => exact absurd (hop.symm.trans hph) (by simp)
  | gone => exact absurd (hop.symm.trans hph) (by simp)
  | emptied => exact absurd hph hempties
  | created v => exact absurd hph hleaves
  | _ => exact hph.elim

theorem realizes_read_absent (hop : op.isRead) (habs : w.Absent key.1) (later : UInt64) :
    Realizes p w key op (op.outcome later none) := by
  rw [KeyOp.outcome_absent hop]
  exact ⟨run_read_absent key hop habs, run_read_gone hop habs⟩

/-- On a live key, a read needs only its reply. -/
theorem realizes_read_live (hop : op.isRead) {m : Meta} (hlive : w.liveMeta key.1 = some m) {e : Entry}
    (hf : e.value.Filled) (he : m.expireMs = e.expireMs) (hv : Holds p w.disk key.1 m e.value)
    {r : Except EngineError Reply} (hr : ((Op.keyed key op).run w).1 = r) : Realizes p w key op (r, some e) := by
  refine ⟨hr, ?_⟩
  rw [run_read_kept hop hlive]
  exact ⟨key.2, hf, m, readMeta_of_liveMeta hlive, he, hv⟩

end Reads

/-! ## Operations of another type -/

/-- The type of value an operation is about, if it is about one. -/
def KeyOp.wants : KeyOp → Option UInt8
  | .get => some TYPE_STRING
  | .hset _ | .hget _ | .hgetall | .hdel _ | .hlen | .hexists _ => some TYPE_HASH
  | .sadd _ | .srem _ | .sismember _ | .smembers | .scard => some TYPE_SET
  | .zadd _ | .zscore _ | .zrem _ | .zcard | .zrange _ _ | .zrangeByScore _ _ _ _ => some TYPE_ZSET
  | .push _ _ | .pop _ _ | .lrange _ _ | .llen => some TYPE_LIST
  | _ => none

section Mistyped

variable {p : ℕ} {w : World} {key : Key} {op : KeyOp} {m : Meta} {t : UInt8}

theorem run_typed_refused {α : Type} {k : Bytes} (hlive : w.liveMeta k = some m) (ht : m.typeId ≠ t)
    (f : Option Meta → StoreM α) (g : α → Reply) :
    ((g <$> (loadTyped k t >>= f)).run exec w).1 = .error .wrongType ∧
      ((g <$> (loadTyped k t >>= f)).run exec w).2.disk = w.disk := by
  obtain ⟨w', hload, hst, -⟩ := run_loadLiveMeta_live hlive
  have hwrong : (loadTyped k t).run exec w = (.error .wrongType, w') := by
    rw [loadTyped, Prog.run_bind_ok _ hload]
    dsimp only
    rw [if_neg ht]
    rfl
  rw [Prog.run_map, Prog.run_bind_err _ hwrong]
  exact ⟨rfl, congrArg Store.disk hst⟩

theorem run_create_refused {α : Type} {k : Bytes} (hlive : w.liveMeta k = some m) (ht : m.typeId ≠ t)
    (init : Meta → Meta) (f : Meta → StoreM α) (g : α → Reply) :
    ((g <$> (loadOrCreate k t init >>= f)).run exec w).1 = .error .wrongType ∧
      ((g <$> (loadOrCreate k t init >>= f)).run exec w).2.disk = w.disk := by
  rw [loadOrCreate, Prog.bind_assoc]
  exact run_typed_refused hlive ht _ g

theorem run_mistyped (hwants : op.wants = some t) (hlive : w.liveMeta key.1 = some m) (ht : m.typeId ≠ t) :
    ((Op.keyed key op).run w).1 = .error .wrongType ∧ ((Op.keyed key op).run w).2.disk = w.disk := by
  cases op with
  | get =>
    obtain rfl := Option.some.inj hwants
    obtain ⟨w', hload, hst, -⟩ := run_loadLiveMeta_live hlive
    have hrun : (GameStore.get key.1).run exec w = (.error .wrongType, w') := by
      rw [GameStore.get, Prog.run_bind_ok _ hload]
      dsimp only
      rw [if_pos ht]
      rfl
    rw [Op.run, Op.prog, KeyOp.prog, Prog.run_map, hrun]
    exact ⟨rfl, congrArg Store.disk hst⟩
  -- It calls `hget`, whose check it is.
  | hexists field =>
    obtain rfl := Option.some.inj hwants
    rw [Op.run, Op.prog, KeyOp.prog, GameStore.hexists, GameStore.hget, Prog.bind_assoc]
    exact run_typed_refused hlive ht _ _
  | hset pairs => exact run_create_refused hlive (Option.some.inj hwants ▸ ht) _ _ _
  | sadd members => exact run_create_refused hlive (Option.some.inj hwants ▸ ht) _ _ _
  | zadd pairs => exact run_create_refused hlive (Option.some.inj hwants ▸ ht) _ _ _
  | push values left => exact run_create_refused hlive (Option.some.inj hwants ▸ ht) _ _ _
  | hget field => exact run_typed_refused hlive (Option.some.inj hwants ▸ ht) _ _
  | hgetall => exact run_typed_refused hlive (Option.some.inj hwants ▸ ht) _ _
  | hdel fields => exact run_typed_refused hlive (Option.some.inj hwants ▸ ht) _ _
  | hlen => exact run_typed_refused hlive (Option.some.inj hwants ▸ ht) _ _
  | srem members => exact run_typed_refused hlive (Option.some.inj hwants ▸ ht) _ _
  | sismember member => exact run_typed_refused hlive (Option.some.inj hwants ▸ ht) _ _
  | smembers => exact run_typed_refused hlive (Option.some.inj hwants ▸ ht) _ _
  | scard => exact run_typed_refused hlive (Option.some.inj hwants ▸ ht) _ _
  | zscore member => exact run_typed_refused hlive (Option.some.inj hwants ▸ ht) _ _
  | zrem members => exact run_typed_refused hlive (Option.some.inj hwants ▸ ht) _ _
  | zcard => exact run_typed_refused hlive (Option.some.inj hwants ▸ ht) _ _
  | zrange start stop => exact run_typed_refused hlive (Option.some.inj hwants ▸ ht) _ _
  | zrangeByScore min minExclusive max maxExclusive =>
    exact run_typed_refused hlive (Option.some.inj hwants ▸ ht) _ _
  | pop count left => exact run_typed_refused hlive (Option.some.inj hwants ▸ ht) _ _
  | lrange start stop => exact run_typed_refused hlive (Option.some.inj hwants ▸ ht) _ _
  | llen => exact run_typed_refused hlive (Option.some.inj hwants ▸ ht) _ _
  | _ => cases hwants

theorem KeyOp.outcome_mistyped (hwants : op.wants = some t) {e : Entry} (ht : e.value.typeId ≠ t)
    (later : UInt64) : op.outcome later (some e) = (.error .wrongType, some e) := by
  obtain ⟨v, expireMs⟩ := e
  cases op <;> cases hwants <;> cases v <;> first | rfl | exact absurd rfl ht

theorem realizes_mistyped (hwants : op.wants = some t) (hlive : w.liveMeta key.1 = some m) {e : Entry}
    (hf : e.value.Filled) (he : m.expireMs = e.expireMs) (hv : Holds p w.disk key.1 m e.value)
    (ht : e.value.typeId ≠ t) (later : UInt64) : Realizes p w key op (op.outcome later (some e)) := by
  obtain ⟨hr, hd⟩ := run_mistyped hwants hlive (hv.typeId ▸ ht)
  rw [KeyOp.outcome_mistyped hwants ht]
  refine ⟨hr, ?_⟩
  rw [hd]
  exact ⟨key.2, hf, m, readMeta_of_liveMeta hlive, he, hv⟩

end Mistyped

/-! ## The elements in order -/

section Order

variable {d : Disk} {k : Bytes} {v : UInt64}

/-- A scan is in the order of what follows the prefix. -/
theorem suffixes_sorted (d : Disk) (pre : Bytes) : ((prefixScan d pre).map fun item =>
    (item.1.drop pre.length, item.2)).Pairwise fun a b => compare a.1 b.1 = .lt := by
  rw [List.pairwise_map]
  apply (prefixScan_sorted d pre).imp_of_mem
  intro a b ha hb hab
  obtain ⟨-, x, hx⟩ := mem_prefixScan.mp (show (a.1, a.2) ∈ _ from ha)
  obtain ⟨-, y, hy⟩ := mem_prefixScan.mp (show (b.1, b.2) ∈ _ from hb)
  rw [← hx, ← hy, compare_append_left] at hab
  rw [← hx, ← hy, List.drop_left, List.drop_left]
  exact hab

theorem pairsOf_eq {h : Table Bytes} (hd : ∀ f, d[subkey k v f]? = h[f]?) : pairsOf d k v = h.toList := by
  apply (toList_eq (suffixes_sorted d (subkeyPrefix k v)) ?_).symm
  intro f value
  rw [mem_hgetall_scan, hd]

theorem suffixes_eq {s : Table Unit} (hs : members d k v = keySet s) :
    ((prefixScan d (subkeyPrefix k v)).map fun item => item.1.drop (subkeyPrefix k v).length) = s.keys := by
  have hsorted := suffixes_sorted d (subkeyPrefix k v)
  rw [List.pairwise_map] at hsorted
  apply (keys_eq (List.pairwise_map.mpr hsorted) ?_).symm
  intro x
  rw [mem_smembers_scan, ← Option.isSome_iff_exists, ← mem_members, hs, mem_keySet]

theorem F64.place_injective : Function.Injective F64.place := by
  intro a b hab
  apply encodeScore_injective
  rw [encodeScore_eq, encodeScore_eq, hab]

theorem rankLe_trans (a b c : Bytes × F64) (hab : rankLe a b) (hbc : rankLe b c) : rankLe a c := by
  simp only [rankLe, Bool.or_eq_true, Bool.and_eq_true, decide_eq_true_eq] at *
  rcases hab with hab | ⟨hab, hx⟩ <;> rcases hbc with hbc | ⟨hbc, hy⟩
  · exact .inl (hab.trans hbc)
  · exact .inl (hbc ▸ hab)
  · exact .inl (hab ▸ hbc)
  · exact .inr ⟨hab.trans hbc, TransCmp.isLE_trans hx hy⟩

theorem rankLe_total (a b : Bytes × F64) : rankLe a b || rankLe b a := by
  simp only [rankLe, Bool.or_eq_true, Bool.and_eq_true, decide_eq_true_eq]
  rcases Int.lt_trichotomy a.2.place b.2.place with h | h | h
  · exact .inl (.inl h)
  · cases hc : (compare a.1 b.1).isLE with
    | true => exact .inl (.inr ⟨h, rfl⟩)
    | false =>
      refine .inr (.inr ⟨h.symm, ?_⟩)
      have hgt : compare a.1 b.1 = .gt := by simpa using hc
      rw [OrientedCmp.lt_of_gt hgt]
      rfl
  · exact .inr (.inl h)

theorem rankLe_antisymm {a b : Bytes × F64} (hab : rankLe a b) (hba : rankLe b a) : a = b := by
  simp only [rankLe, Bool.or_eq_true, Bool.and_eq_true, decide_eq_true_eq] at hab hba
  have hp : a.2.place = b.2.place := by
    rcases hab with hab | hab <;> rcases hba with hba | hba <;> omega
  have hx : (compare a.1 b.1).isLE := by
    rcases hab with hab | hab
    · omega
    · exact hab.2
  have hy : (compare b.1 a.1).isLE := by
    rcases hba with hba | hba
    · omega
    · exact hba.2
  exact Prod.ext (compare_eq_bytes.mp (OrientedCmp.isLE_antisymm hx hy)) (F64.place_injective hp)

/-- The score index has the members by rank. -/
theorem entriesOf_eq {z : Table F64} (h : DualRecords d k v (z[·]?)) : entriesOf d k v = ranked z := by
  have hnodup : (entriesOf d k v).Nodup := List.Nodup.of_map Prod.fst h.entriesOf_nodup
  have hnodup' : z.toList.Nodup := by
    apply List.Nodup.of_map Prod.fst
    rw [ExtTreeMap.map_fst_toList_eq_keys]
    exact ExtTreeMap.nodup_keys
  apply @List.Perm.eq_of_pairwise _ (fun a b => rankLe a b = true)
  · intro a b _ _ hab hba
    exact rankLe_antisymm hab hba
  · apply h.entriesOf_ordered.imp
    intro a b hab
    rcases hab with hab | ⟨hs, hx⟩
    · simp [rankLe, hab]
    · simp [rankLe, hs, hx]
  · exact List.pairwise_mergeSort rankLe_trans rankLe_total z.toList
  · apply List.Perm.trans _ (List.mergeSort_perm z.toList rankLe).symm
    rw [List.perm_ext_iff_of_nodup hnodup hnodup']
    intro e
    rw [h.mem_entriesOf, ExtTreeMap.mem_toList_iff_getElem?_eq_some]

end Order

/-! ## Reads of a live key -/

/-- The bounds of a score range are numbers, as the command layer parses them. -/
def KeyOp.bounded : KeyOp → Prop
  | .zrangeByScore min _ max _ => min.isNaN = false ∧ max.isNaN = false
  | _ => True

section Replies

variable {p : ℕ} {w : World} {key : Key} {m : Meta}

theorem reply_get {bytes : Bytes} (hlive : w.liveMeta key.1 = some m) (ht : m.typeId = TYPE_STRING)
    (hb : m.payload = bytes) : ((Op.keyed key .get).run w).1 = .ok (.value (some bytes)) := by
  obtain ⟨w', hload, -⟩ := run_loadLiveMeta_live hlive
  have hrun : (GameStore.get key.1).run exec w = (.ok (some bytes), w') := by
    rw [GameStore.get, Prog.run_bind_ok _ hload]
    dsimp only
    rw [if_neg (not_not.mpr ht), hb]
    rfl
  exact (run_keyed key .get rfl (congrArg Prod.fst hrun)).1

theorem reply_typeOf {v : Value} (hlive : w.liveMeta key.1 = some m) (ht : m.typeId = v.typeId) :
    ((Op.keyed key .typeOf).run w).1 = .ok (.text v.typeName) := by
  obtain ⟨w', hload, -⟩ := run_loadLiveMeta_live hlive
  have hrun : (GameStore.typeOf key.1).run exec w = (.ok v.typeName, w') := by
    rw [GameStore.typeOf, Prog.run_bind_ok _ hload]
    dsimp only
    rw [ht]
    cases v <;> rfl
  exact (run_keyed key .typeOf rfl (congrArg Prod.fst hrun)).1

theorem reply_pttl (hlive : w.liveMeta key.1 = some m) :
    ((Op.keyed key .pttl).run w).1 = .ok (.int (timeLeft (w.ms.get 1) m.expireMs)) := by
  by_cases he : m.expireMs = 0
  · obtain ⟨w', hload, -⟩ := run_loadLiveMeta_live hlive
    have hrun : (GameStore.pttl key.1).run exec w = (.ok (-1), w') := by
      rw [GameStore.pttl, Prog.run_bind_ok _ hload]
      dsimp only
      rw [if_pos he]
      rfl
    rw [timeLeft, if_pos he]
    exact (run_keyed key .pttl rfl (congrArg Prod.fst hrun)).1
  · obtain ⟨hm, hdue⟩ := Option.filter_eq_some_iff.mp hlive
    have hin : ¬ m.expireMs ≤ w.ms.head := by simpa [he] using hdue
    rw [timeLeft, if_neg he]
    exact (run_keyed key .pttl rfl (run_pttl_live hm he hin)).1

theorem reply_hget {h : Table Bytes} (hlive : w.liveMeta key.1 = some m) (hm : HashMeta w.disk key.1 m h)
    (field : Bytes) : ((Op.keyed key (.hget field)).run w).1 = .ok (.value h[field]?) := by
  obtain ⟨w', hload, hst, -⟩ := run_loadTyped_live hlive
  rw [hm.typed] at hload
  have hd : w'.disk = w.disk := by rw [hst]
  have hrun : ((GameStore.hget key.1 field).run exec w).1 = .ok h[field]? := by
    rw [GameStore.hget, Prog.run_bind_ok _ hload, ← hm.records, ← hd]
    rfl
  exact (run_keyed key (.hget field) rfl hrun).1

theorem reply_storedCount {t : UInt8} {op : KeyOp} (hop : op.prog key.1 = Reply.int <$> storedCount key.1 t)
    (hlive : w.liveMeta key.1 = some m) (ht : m.typeId = t) {n : ℕ} (hn : m.fieldCount.toNat = n) :
    ((Op.keyed key op).run w).1 = .ok (.int n) := by
  have hcount := run_storedCount_live hlive
  rw [ht, hn] at hcount
  exact (run_keyed key op hop hcount).1

theorem ZSetMeta.size_eq {d : Disk} {k : Bytes} {z : Table F64} (h : ZSetMeta d k m (z[·]?)) :
    m.fieldCount.toNat = z.size := by
  rw [h.counted]
  exact card_eq_size fun x => h.dual.mem_members

/-- A read of a live key replies what the entry says. -/
theorem reply_read_live {op : KeyOp} (hop : op.isRead) (hb : op.bounded) (hlive : w.liveMeta key.1 = some m)
    {e : Entry} (hf : e.value.Filled) (he : m.expireMs = e.expireMs) (hv : Holds p w.disk key.1 m e.value)
    (hp : p < 2 ^ 63) (ht : ∀ t, op.wants = some t → e.value.typeId = t) :
    ∃ r, op.outcome (w.ms.get 1) (some e) = (r, some e) ∧ ((Op.keyed key op).run w).1 = r := by
  obtain ⟨v, expireMs⟩ := e
  -- A read of another type is ruled out by `ht`.
  cases op with
  | «exists» => exact ⟨_, rfl, run_exists_live hlive⟩
  | typeOf => exact ⟨_, rfl, reply_typeOf hlive hv.typeId⟩
  | pttl =>
    refine ⟨_, rfl, ?_⟩
    rw [reply_pttl hlive, he]
    rfl
  | get =>
    cases v with
    | string bytes => exact ⟨_, rfl, reply_get hlive hv.1 hv.2⟩
    | _ => cases ht _ rfl
  | hget field =>
    cases v with
    | hash h => exact ⟨_, rfl, reply_hget hlive hv field⟩
    | _ => cases ht _ rfl
  | hgetall =>
    cases v with
    | hash h =>
      refine ⟨_, rfl, ?_⟩
      rw [(run_keyed key .hgetall rfl (run_hgetall_live hlive hv.typed)).1, pairsOf_eq hv.records]
    | _ => cases ht _ rfl
  | hlen =>
    cases v with
    | hash h => exact ⟨_, rfl, reply_storedCount rfl hlive hv.typed hv.counted⟩
    | _ => cases ht _ rfl
  | hexists field =>
    cases v with
    | hash h =>
      refine ⟨_, rfl, (run_hexists_live hlive hv.typed field).trans ?_⟩
      rw [hv.records]
    | _ => cases ht _ rfl
  | sismember member =>
    cases v with
    | set s =>
      refine ⟨_, rfl, (run_sismember_live hlive hv.typed member).trans ?_⟩
      congr 2
      rw [Bool.eq_iff_iff, ← mem_members, hv.records, mem_keySet]
    | _ => cases ht _ rfl
  | smembers =>
    cases v with
    | set s =>
      refine ⟨_, rfl, (run_smembers_live hlive hv.typed).trans ?_⟩
      rw [suffixes_eq hv.records]
    | _ => cases ht _ rfl
  | scard =>
    cases v with
    | set s => exact ⟨_, rfl, reply_storedCount rfl hlive hv.typed (hv.counted.trans (card_keySet s))⟩
    | _ => cases ht _ rfl
  | zscore member =>
    cases v with
    | zset z => exact ⟨_, rfl, run_zscore_dual hlive hv.1.typed hv.1.dual member⟩
    | _ => cases ht _ rfl
  | zcard =>
    cases v with
    | zset z => exact ⟨_, rfl, reply_storedCount rfl hlive hv.1.typed hv.1.size_eq⟩
    | _ => cases ht _ rfl
  | zrange start stop =>
    cases v with
    | zset z =>
      refine ⟨_, rfl, ?_⟩
      have hlen : m.fieldCount.toNat = (entriesOf w.disk key.1 m.version).length := by
        rw [hv.1.counted, hv.1.dual.length_entriesOf]
      rw [(run_keyed key (.zrange start stop) rfl
        (run_zrange hlive hv.1.typed hv.1.dual.indexes hlen start stop)).1, entriesOf_eq hv.1.dual]
    | _ => cases ht _ rfl
  | zrangeByScore min minExclusive max maxExclusive =>
    cases v with
    | zset z =>
      refine ⟨_, rfl, ?_⟩
      rw [run_zrangeByScore hlive hv.1.typed hv.1.dual hv.2 hb.1 hb.2, entriesOf_eq hv.1.dual]
    | _ => cases ht _ rfl
  | lrange start stop =>
    cases v with
    | list l =>
      obtain ⟨q, hq, hl⟩ := hv
      obtain ⟨head, tail, hbounds, hs, -⟩ := hl.ends
      have hlen : l.length < 2 ^ 63 := by
        have := hl.size
        omega
      exact ⟨_, rfl, (run_keyed key (.lrange start stop) rfl
        (run_lrange hlive hl.typed hbounds hs.listed hlen start stop)).1⟩
    | _ => cases ht _ rfl
  | llen =>
    cases v with
    | list l =>
      obtain ⟨q, hq, hl⟩ := hv
      exact ⟨_, rfl, (actsAsList_live hlive hl (List.ne_nil_of_length_pos hf) (by omega)).llen⟩
    | _ => cases ht _ rfl
  | _ => cases hop

end Replies

end GameStore
