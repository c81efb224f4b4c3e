import GameStore.HashRemoval
import GameStore.ScoreOrder

/-!
# The counters of hashes, sets and sorted sets

The number of elements is stored in 32 bits and counted up without a check, while nothing
bounds the elements. In every run the counter is the number of elements modulo `2 ^ 32`,
so it is right exactly below `2 ^ 32` elements.
-/

namespace GameStore

open Lib Std

section Counters

variable {k : Bytes} {w : World} {m : Meta}

/-- The counter is the number of element records as far as it fits. -/
def CountKept (d : Disk) (k : Bytes) (m : Meta) : Prop :=
  m.fieldCount = UInt32.ofNat (members d k m.version).card

theorem countKept_untouched {d d' : Disk} {key : Key} {m m' : Meta} (h : Untouched key.1 d d' m m')
    (hm : CountKept d key.1 m) : CountKept d' key.1 m' := by
  have hrecords : members d' key.1 m'.version = members d key.1 m.version := by
    rw [h.same]
    exact members_congr key.2 h.records
  rw [CountKept, hrecords, h.same]
  exact hm

/-! ## Adding -/

theorem members_fieldPuts (d : Disk) (v : UInt64) (pairs : List (Bytes × Bytes)) :
    members (applyBatch d (fieldPuts k v pairs)) k v = members d k v ∪ (pairs.map Prod.fst).toFinset := by
  ext x
  have hlookup : (pairs.reverse.lookup x).isSome ↔ x ∈ pairs.map Prod.fst := by
    rw [List.lookup_isSome_iff]
    simp
  rw [mem_members, getElem?_fieldPuts, Option.isSome_or, Bool.or_eq_true, hlookup, Finset.mem_union,
    mem_members, List.mem_toFinset]
  exact or_comm

/-- Distinct fields are counted right. -/
theorem absentPairs_distinct (d : Disk) (v : UInt64) {pairs : List (Bytes × Bytes)}
    (h : (pairs.map Prod.fst).Nodup) :
    absentPairs d k v pairs = ((pairs.map Prod.fst).toFinset \ members d k v).card := by
  have hset : ((pairs.map Prod.fst).filter fun f => d[subkey k v f]?.isNone).toFinset =
      (pairs.map Prod.fst).toFinset \ members d k v := by
    ext x
    simp [mem_members]
  rw [← hset, List.toFinset_card_of_nodup (h.filter _), absentPairs, List.filter_map, List.length_map,
    ← List.countP_eq_length_filter]
  rfl

/-- What a call leaves that writes distinct elements and adds the new ones to the counter. -/
theorem countKept_added (hk : k.length < 2 ^ 32) {d : Disk} (hc : m.counted) (hm : CountKept d k m)
    {pairs : List (Bytes × Bytes)} (hnd : (pairs.map Prod.fst).Nodup) {n : ℕ}
    (hn : n = absentPairs d k m.version pairs) {m' : Meta}
    (hm' : readMeta (applyBatch d (fieldPuts k m.version pairs ++ [.put (metaKey k)
      (m.setFieldCount (m.fieldCount + UInt32.ofNat n)).encode])) k = some m') :
    CountKept (applyBatch d (fieldPuts k m.version pairs ++ [.put (metaKey k)
      (m.setFieldCount (m.fieldCount + UInt32.ofNat n)).encode])) k m' := by
  have hstored := (readMeta_putMeta (fieldPuts_records (v := m.version) hk pairs) d
    (m.setFieldCount (m.fieldCount + UInt32.ofNat n)) k).trans (if_pos rfl)
  obtain rfl := Option.some.inj (hstored.symm.trans hm')
  change (m.setFieldCount _).fieldCount = UInt32.ofNat (members _ k m.version).card
  rw [Meta.fieldCount_setFieldCount hc, members_putMeta hk, members_fieldPuts, hm, hn,
    absentPairs_distinct d m.version hnd, ← Finset.union_sdiff_self_eq_union,
    Finset.card_union_of_disjoint Finset.disjoint_sdiff, UInt32.ofNat_add]

/-! ## Removing -/

/-- What a removal does with the records of the distinct elements `xs` of the key. -/
inductive Removes (d d' : Disk) (k : Bytes) (m : Meta) (xs : List Bytes) : Prop
  | same (hnil : xs = []) (h : d' = d) : Removes d d' k m xs
  | gone (hne : xs ≠ []) (hall : m.fieldCount.toNat ≤ xs.length) (h : d'[metaKey k]? = none) :
      Removes d d' k m xs
  | rest (hrest : xs.length < m.fieldCount.toNat)
      (h : d' = applyBatch d ((xs.map fun x => .delete (subkey k m.version x)) ++
        [.put (metaKey k) (m.setFieldCount (UInt32.ofNat (m.fieldCount.toNat - xs.length))).encode])) :
      Removes d d' k m xs

theorem deletes_records (hk : k.length < 2 ^ 32) (v : UInt64) (xs : List Bytes) :
    Records k v (xs.map fun x => .delete (subkey k v x)) := by
  intro op hop
  obtain ⟨x, -, rfl⟩ := List.mem_map.mp hop
  exact parseOwnerVersion_subkey hk _ x

/-- The end of `hdel` and `srem`. -/
theorem removes_of_run {s w' : World} {xs : List Bytes} (hst : w'.toStore = w.toStore)
    (h : s = if xs = [] then w'
      else if m.fieldCount.toNat ≤ xs.length then
        { w' with
          disk := (applyBatch w.disk (xs.map fun x => .delete (subkey k m.version x))).erase (metaKey k)
          versions := w.versions.erase k }
      else { w' with disk := applyBatch w.disk ((xs.map fun x => .delete (subkey k m.version x)) ++
        [.put (metaKey k) (m.setFieldCount (UInt32.ofNat (m.fieldCount.toNat - xs.length))).encode]) }) :
    Removes w.disk s.disk k m xs := by
  subst h
  by_cases hnil : xs = []
  · refine .same hnil ?_
    rw [if_pos hnil, hst]
  · rw [if_neg hnil]
    by_cases hall : m.fieldCount.toNat ≤ xs.length
    · rw [if_pos hall]
      exact .gone hnil hall ((getElem?_erase_bytes _ _ _).trans (if_pos rfl))
    · rw [if_neg hall]
      exact .rest (by omega) rfl

theorem Removes.countKept {d d' : Disk} {xs : List Bytes} (h : Removes d d' k m xs) (hk : k.length < 2 ^ 32)
    (hc : m.counted) (hstored : readMeta d k = some m) (hm : CountKept d k m) (hnd : xs.Nodup)
    (hsub : xs.toFinset ⊆ members d k m.version) {m' : Meta} (hm' : readMeta d' k = some m') :
    CountKept d' k m' := by
  cases h with
  | same hnil h =>
    subst h
    obtain rfl : m = m' := Option.some.inj (hstored.symm.trans hm')
    exact hm
  | gone hne hall h =>
    rw [readMeta, h] at hm'
    cases hm'
  | rest hrest h =>
    subst h
    have hnew := (readMeta_putMeta (deletes_records hk m.version xs) d (m.setFieldCount
      (UInt32.ofNat (m.fieldCount.toNat - xs.length))) k).trans (if_pos rfl)
    obtain rfl := Option.some.inj (hnew.symm.trans hm')
    change (m.setFieldCount _).fieldCount = UInt32.ofNat (members _ k m.version).card
    rw [Meta.fieldCount_setFieldCount hc, members_putMeta hk, members_deleted, Finset.card_sdiff_of_subset hsub,
      List.toFinset_card_of_nodup hnd]
    -- Below `2 ^ 32` nothing is lost, and above the counter keeps the remainder.
    have hnat : m.fieldCount.toNat = (members d k m.version).card % 2 ^ 32 := by
      rw [hm, UInt32.toNat_ofNat']
    apply UInt32.toNat_inj.mp
    rw [UInt32.toNat_ofNat', UInt32.toNat_ofNat']
    omega

/-! ## Whole runs -/

/-- What a creating call works on: the metadata it has loaded or made is counted right. -/
theorem exists_loaded {t : UInt8} (ht : (newMeta t w.nextIssue).counted) (hw : w.Orderly) {key : Key}
    (hkept : Kept t CountKept w.disk) (htyped : ∀ m, w.liveMeta key.1 = some m → m.typeId = t) (op : KeyOp)
    (hop : op.creates) (he : Ascending w (.run (.keyed key op))) :
    ∃ m w', (loadOrCreate key.1 t fun m => m.setFieldCount 0).run exec w = (.ok m, w') ∧ m.typeId = t ∧
      CountKept w'.disk key.1 m ∧ ∀ m', readMeta w'.disk key.1 = some m' → CountKept w'.disk key.1 m' := by
  cases hlive : w.liveMeta key.1 with
  | some m =>
    obtain ⟨w', hload, hst, -⟩ := run_loadOrCreate_live hlive fun m => m.setFieldCount 0
    have hd : w'.disk = w.disk := by rw [hst]
    have hm := readMeta_of_liveMeta hlive
    have hold := hkept key m hm (htyped m hlive)
    rw [htyped m hlive] at hload
    rw [← hd] at hm hold
    refine ⟨m, w', hload, htyped m hlive, hold, fun m' hm' => ?_⟩
    obtain rfl : m = m' := Option.some.inj (hm.symm.trans hm')
    exact hold
  | none =>
    have habs := hw.absent hlive
    obtain ⟨w', hload, hd⟩ := run_loadOrCreate_absent habs t fun m => m.setFieldCount 0
    have hnew : Unused w'.disk key.1 w.nextIssue := hd ▸ (hw.unused hop he habs).erase (metaKey key.1)
    refine ⟨_, w', hload, rfl, ?_, fun m' hm' => ?_⟩
    · change (Meta.setFieldCount _ 0).fieldCount = UInt32.ofNat (members w'.disk key.1 w.nextIssue).card
      rw [Meta.fieldCount_setFieldCount ht, members_unused key.2 hnew]
      rfl
    · rw [hd, readMeta, getElem?_erase_bytes, if_pos rfl] at hm'
      cases hm'

theorem run_keyed_disk {α : Type} {key : Key} {op : KeyOp} {p : StoreM α} {g : α → Reply}
    (hp : op.prog key.1 = g <$> p) : ((Op.keyed key op).run w).2 = (p.run exec w).2 := by
  rw [Op.run, Op.prog, hp, Prog.run_map]

theorem setCounts_step {op : Op} (he : Ascending w (.run op)) (hw : w.Orderly)
    (hkept : Kept TYPE_SET CountKept w.disk) : Kept TYPE_SET CountKept (op.run w).2.disk := by
  refine kept_run (fun m hm => composite_of_type (.inr (.inl hm))) (fun d d' key m m' h => countKept_untouched h)
    hw he hkept ?_
  rintro key op' rfl hkind htyped m' hm'
  cases op' with
  | sadd listed =>
    obtain ⟨m, w', hload, ht, hm, hsame⟩ := exists_loaded rfl hw hkept htyped (.sadd listed) rfl he
    have hrun := run_sadd listed hload rfl
    have hnd : (missing w'.disk key.1 m.version (firsts [] listed)).Nodup := (firsts_nodup [] listed).filter _
    have habsent : ∀ x ∈ missing w'.disk key.1 m.version (firsts [] listed),
        w'.disk[subkey key.1 m.version x]?.isNone = true := fun x hx => (List.mem_filter.mp hx).2
    set xs := missing w'.disk key.1 m.version (firsts [] listed)
    rw [run_keyed_disk rfl, hrun] at hm' ⊢
    -- Without a new member nothing is written.
    by_cases hnil : xs = []
    · rw [if_pos hnil] at hm' ⊢
      exact hsame m' hm'
    · rw [if_neg hnil] at hm' ⊢
      refine countKept_added key.2 (by simp [Meta.counted, ht]) hm ?_ ?_ hm'
      · rwa [List.map_map, show (Prod.fst ∘ fun x => (x, ([] : Bytes))) = id from rfl, List.map_id]
      · rw [absentPairs, List.countP_map, eq_comm, List.countP_eq_length]
        exact habsent
  | srem listed =>
    cases hlive : w.liveMeta key.1 with
    | some m =>
      have hm := readMeta_of_liveMeta hlive
      obtain ⟨w', hst, hrun⟩ := run_srem key.2 hlive (htyped m hlive) listed rfl
      obtain ⟨hset, -⟩ := found_firsts (k := key.1) (v := m.version) w.disk listed
      have hremoves := removes_of_run hst (congrArg Prod.snd hrun)
      rw [run_keyed_disk rfl] at hm' ⊢
      refine hremoves.countKept key.2 (by simp [Meta.counted, htyped m hlive]) hm
        (hkept key m hm (htyped m hlive)) ((firsts_nodup [] listed).filter _) ?_ hm'
      rw [hset]
      exact Finset.inter_subset_right
    | none =>
      have hgone : ((Op.keyed key (.srem listed)).run w).2.disk[metaKey key.1]? = none :=
        run_typed_gone (hw.absent hlive) _ _ rfl
      rw [readMeta, hgone] at hm'
      cases hm'
  | _ => cases hkind

/-- `hset` and `hdel` name no field twice. -/
def Op.distinct : Op → Prop
  | .keyed _ (.hset pairs) => (pairs.map Prod.fst).Nodup
  | .keyed _ (.hdel fields) => fields.Nodup
  | _ => True

theorem found_subset (d : Disk) (v : UInt64) (xs : List Bytes) : (found d k v xs).toFinset ⊆ members d k v := by
  rw [toFinset_found]
  exact Finset.inter_subset_right

theorem hashCounts_step {op : Op} (he : Ascending w (.run op)) (hop : op.distinct) (hw : w.Orderly)
    (hkept : Kept TYPE_HASH CountKept w.disk) : Kept TYPE_HASH CountKept (op.run w).2.disk := by
  refine kept_run (fun m hm => composite_of_type (.inl hm)) (fun d d' key m m' h => countKept_untouched h)
    hw he hkept ?_
  rintro key op' rfl hkind htyped m' hm'
  cases op' with
  | hset pairs =>
    obtain ⟨m, w', hload, ht, hm, -⟩ := exists_loaded rfl hw hkept htyped (.hset pairs) rfl he
    have hrun := run_hset pairs hload
    rw [run_keyed_disk rfl, hrun] at hm' ⊢
    exact countKept_added key.2 (by simp [Meta.counted, ht]) hm hop rfl hm'
  | hdel listed =>
    cases hlive : w.liveMeta key.1 with
    | some m =>
      have hm := readMeta_of_liveMeta hlive
      obtain ⟨w', hst, hrun⟩ := run_hdel key.2 hlive (htyped m hlive) listed rfl
      have hremoves := removes_of_run hst (congrArg Prod.snd hrun)
      rw [run_keyed_disk rfl] at hm' ⊢
      exact hremoves.countKept key.2 (by simp [Meta.counted, htyped m hlive]) hm
        (hkept key m hm (htyped m hlive)) (hop.filter _) (found_subset _ _ _) hm'
    | none =>
      have hgone : ((Op.keyed key (.hdel listed)).run w).2.disk[metaKey key.1]? = none :=
        run_typed_gone (hw.absent hlive) _ _ rfl
      rw [readMeta, hgone] at hm'
      cases hm'
  | _ => cases hkind

/-- A step of a sequential run in which hash calls name distinct fields. -/
def CountStep (w : World) : Event → Prop
  | .run op => Ascending w (.run op) ∧ op.distinct
  | _ => False

/-- What such runs keep. -/
structure Counted (w : World) : Prop where
  orderly : w.Orderly
  hashes : Kept TYPE_HASH CountKept w.disk
  sets : Kept TYPE_SET CountKept w.disk
  zsets : Kept TYPE_ZSET (ZSetKept False) w.disk

theorem counted_run {clock : Clock} {es : List Event} (hes : Steps CountStep (World.opened ∅ clock) es) :
    Counted ((World.opened ∅ clock).after es) := by
  have hstart : Counted (World.opened ∅ clock) := by
    have hnone : ∀ k, readMeta (World.opened ∅ clock).disk k = none := by
      intro k
      rw [opened_eq, readMeta, ExtTreeMap.getElem?_empty]
      rfl
    refine ⟨orderly_opened clock, fun key m hm => ?_, fun key m hm => ?_, zsetsKept_opened False clock⟩
    · cases (hnone key.1).symm.trans hm
    · cases (hnone key.1).symm.trans hm
  refine hes.induction (fun w e he h => ?_) hstart
  cases e with
  | failing op n => exact he.elim
  | restart clock => exact he.elim
  | run op =>
    exact ⟨orderly_step he.1 h.orderly, hashCounts_step he.1 he.2 h.orderly h.hashes,
      setCounts_step he.1 h.orderly h.sets, zsetsKept_step he.1 False.elim h.orderly h.zsets⟩

theorem Counted.countKept (h : Counted w) {key : Key} (hlive : w.liveMeta key.1 = some m) (hc : m.counted) :
    CountKept w.disk key.1 m := by
  have hm := readMeta_of_liveMeta hlive
  have htypes : m.typeId = TYPE_HASH ∨ m.typeId = TYPE_SET ∨ m.typeId = TYPE_ZSET := by
    simpa [Meta.counted] using hc
  obtain ht | ht | ht := htypes
  · exact h.hashes key m hm ht
  · exact h.sets key m hm ht
  · exact (h.zsets key m hm ht).count

/-! ## What the counter is used for -/

/-- `HLEN`, `SCARD` or `ZCARD`. -/
def cardOp (t : UInt8) : KeyOp := if t = TYPE_HASH then .hlen else if t = TYPE_SET then .scard else .zcard

/-- `HDEL`, `SREM` or `ZREM`. -/
def removeOp (t : UInt8) (listed : List Bytes) : KeyOp :=
  if t = TYPE_HASH then .hdel listed else if t = TYPE_SET then .srem listed else .zrem listed

/-- The stored count is the number of elements, the query says so, and a removal (of distinct
fields, for a hash) deletes the key only if it lists every element. -/
structure CountsElements (w : World) (key : Key) (m : Meta) : Prop where
  stored : m.fieldCount.toNat = (members w.disk key.1 m.version).card
  reply : ((Op.keyed key (cardOp m.typeId)).run w).1 = .ok (.int (members w.disk key.1 m.version).card)
  removal : ∀ listed : List Bytes, (m.typeId = TYPE_HASH → listed.Nodup) →
    ((Op.keyed key (removeOp m.typeId listed)).run w).2.disk[metaKey key.1]? = none →
      members w.disk key.1 m.version ⊆ listed.toFinset

theorem Removes.le_of_gone {d d' : Disk} {xs : List Bytes} (h : Removes d d' k m xs) (hk : k.length < 2 ^ 32)
    (hstored : readMeta d k = some m) (hgone : d'[metaKey k]? = none) : m.fieldCount.toNat ≤ xs.length := by
  have hnone : readMeta d' k = none := by
    rw [readMeta, hgone]
    rfl
  cases h with
  | same hnil h =>
    subst h
    cases hstored.symm.trans hnone
  | gone hne hall h => exact hall
  | rest hrest h =>
    subst h
    cases ((readMeta_putMeta (deletes_records hk m.version xs) d _ k).trans (if_pos rfl)).symm.trans hnone

/-- A removal that deletes the key has removed as many elements as were counted. -/
theorem Counted.le_of_removed (h : Counted w) {key : Key} (hlive : w.liveMeta key.1 = some m) (hc : m.counted)
    {listed : List Bytes} (hnd : m.typeId = TYPE_HASH → listed.Nodup)
    (hgone : ((Op.keyed key (removeOp m.typeId listed)).run w).2.disk[metaKey key.1]? = none) :
    m.fieldCount.toNat ≤ (listed.toFinset ∩ members w.disk key.1 m.version).card := by
  have hm := readMeta_of_liveMeta hlive
  have htypes : m.typeId = TYPE_HASH ∨ m.typeId = TYPE_SET ∨ m.typeId = TYPE_ZSET := by
    simpa [Meta.counted] using hc
  -- Each type counts what it removes in its own loop.
  obtain ht | ht | ht := htypes
  · obtain ⟨w', hst, hrun⟩ := run_hdel key.2 hlive ht listed rfl
    rw [ht, removeOp, if_pos rfl, run_keyed_disk rfl] at hgone
    have hle := (removes_of_run hst (congrArg Prod.snd hrun)).le_of_gone key.2 hm hgone
    have hnodup : (found w.disk key.1 m.version listed).Nodup := (hnd ht).filter _
    rwa [← List.toFinset_card_of_nodup hnodup, toFinset_found] at hle
  · obtain ⟨w', hst, hrun⟩ := run_srem key.2 hlive ht listed rfl
    rw [ht, removeOp, if_neg (by decide), if_pos rfl, run_keyed_disk rfl] at hgone
    have hle := (removes_of_run hst (congrArg Prod.snd hrun)).le_of_gone key.2 hm hgone
    rwa [(found_firsts w.disk listed).2] at hle
  · obtain ⟨score, hdual, -⟩ := (h.zsets key m hm ht).dual
    rw [ht, removeOp, if_neg (by decide), if_neg (by decide), run_keyed_disk rfl] at hgone
    cases (zrem_removed key.2 hlive ht hdual listed).2 with
    | none hd hnone =>
      rw [hd] at hgone
      rw [readMeta, hgone] at hm
      cases hm
    | gone hnone hall => exact hall
    | some hnew hrest hlt =>
      rw [readMeta, hgone] at hnew
      cases hnew

theorem run_cardOp {key : Key} (hlive : w.liveMeta key.1 = some m) (hc : m.counted) :
    ((Op.keyed key (cardOp m.typeId)).run w).1 = .ok (.int m.fieldCount.toNat) := by
  have hcount := run_storedCount_live hlive
  have htypes : m.typeId = TYPE_HASH ∨ m.typeId = TYPE_SET ∨ m.typeId = TYPE_ZSET := by
    simpa [Meta.counted] using hc
  obtain ht | ht | ht := htypes
  · rw [ht] at hcount ⊢
    exact (run_keyed key .hlen rfl hcount).1
  · rw [ht] at hcount ⊢
    exact (run_keyed key .scard rfl hcount).1
  · rw [ht] at hcount ⊢
    exact (run_keyed key .zcard rfl hcount).1

/-- In every state of every sequential run in which hash calls name distinct fields: the
counter of a live hash, set or sorted set is right, with the query and the removals that
rely on it, exactly when there are fewer than `2 ^ 32` elements. -/
theorem counters_right_iff (clock : Clock) (es : List Event) (hes : Steps CountStep (World.opened ∅ clock) es)
    (key : Key) (m : Meta) (hlive : ((World.opened ∅ clock).after es).liveMeta key.1 = some m) (hc : m.counted) :
    CountsElements ((World.opened ∅ clock).after es) key m ↔
      (members ((World.opened ∅ clock).after es).disk key.1 m.version).card < 2 ^ 32 := by
  have hcounted := counted_run hes
  have hkept := hcounted.countKept hlive hc
  set w := (World.opened ∅ clock).after es
  constructor
  · intro h
    rw [← h.stored]
    exact m.fieldCount.toNat_lt
  · intro hsmall
    have hstored : m.fieldCount.toNat = (members w.disk key.1 m.version).card := by
      rw [hkept, UInt32.toNat_ofNat', Nat.mod_eq_of_lt hsmall]
    refine ⟨hstored, hstored ▸ run_cardOp hlive hc, fun listed hnd hgone => ?_⟩
    have hle := hcounted.le_of_removed hlive hc hnd hgone
    have hall := Finset.eq_of_subset_of_card_le Finset.inter_subset_right (hstored ▸ hle)
    rw [← hall]
    exact Finset.inter_subset_left

/-- With `2 ^ 32` members the counter is back at zero: `ZCARD` says so, and the removal of one
member deletes the key with all others. -/
theorem zset_of_crowd {clock : Clock} {key : Key} {pairs : List (F64 × Bytes)}
    (hes : Steps CountStep (World.opened ∅ clock) [.run (.keyed key (.zadd pairs))])
    (hcard : ((pairs.map Prod.snd).toFinset).card = 2 ^ 32) :
    ∃ m, ((World.opened ∅ clock).after [.run (.keyed key (.zadd pairs))]).liveMeta key.1 = some m ∧
      m.counted ∧ ¬ CountsElements ((World.opened ∅ clock).after [.run (.keyed key (.zadd pairs))]) key m := by
  have hne : pairs ≠ [] := by
    rintro rfl
    cases hcard
  have habs : (World.opened ∅ clock).Absent key.1 := by
    rw [opened_eq]
    exact .inl ExtTreeMap.getElem?_empty
  obtain ⟨m, hm, ht, hexpire, hmembers⟩ := zadd_absent (orderly_opened clock) habs hne hes.1.1
  have hlive : ((World.opened ∅ clock).after [.run (.keyed key (.zadd pairs))]).liveMeta key.1 = some m := by
    rw [World.liveMeta, hm]
    simp [hexpire]
  refine ⟨m, hlive, by simp [Meta.counted, ht], fun h => ?_⟩
  have hstored := h.stored
  rw [hmembers, hcard] at hstored
  exact absurd hstored (Nat.ne_of_lt m.fieldCount.toNat_lt)

end Counters

/-- A run of one `zadd` that lists a member for every number below `2 ^ 32`. -/
theorem counters_wrong_for_crowd :
    Steps CountStep (World.opened ∅ (stillClock 7 5)) [.run (.keyed Key.k (.zadd (crowd (2 ^ 32))))] ∧
      ∃ m, ((World.opened ∅ (stillClock 7 5)).after [.run (.keyed Key.k (.zadd (crowd (2 ^ 32))))]).liveMeta
          Key.k.1 = some m ∧ m.counted ∧
        ¬ CountsElements ((World.opened ∅ (stillClock 7 5)).after
          [.run (.keyed Key.k (.zadd (crowd (2 ^ 32))))]) Key.k m := by
  have hempty : Ascending (World.opened ∅ (stillClock 7 5)) (.run (.keyed Key.k (.zadd []))) :=
    ascending_of_check (by decide +kernel)
  have hes : Steps CountStep (World.opened ∅ (stillClock 7 5))
      [.run (.keyed Key.k (.zadd (crowd (2 ^ 32))))] := ⟨⟨ascending_zadd hempty _, trivial⟩, trivial⟩
  exact ⟨hes, zset_of_crowd hes (crowd_card le_rfl)⟩

/-- A hash of two fields, one of them given again. -/
def countHistory : List Event :=
  [.run (.keyed Key.k (.hset [([102], [49]), ([103], [50])])), .run (.keyed Key.k (.hset [([102], [51])]))]

theorem counters_right_countHistory : Steps CountStep (World.opened ∅ (stillClock 7 5)) countHistory ∧
    ∃ m, ((World.opened ∅ (stillClock 7 5)).after countHistory).liveMeta Key.k.1 = some m ∧ m.counted ∧
      CountsElements ((World.opened ∅ (stillClock 7 5)).after countHistory) Key.k m := by
  have hes : Steps CountStep (World.opened ∅ (stillClock 7 5)) countHistory :=
    ⟨⟨ascending_of_check (by decide +kernel), by simp [Op.distinct]⟩,
      ⟨ascending_of_check (by decide +kernel), by simp [Op.distinct]⟩, trivial⟩
  have hlive : (((World.opened ∅ (stillClock 7 5)).after countHistory).liveMeta Key.k.1).map Meta.counted =
      some true := by decide +kernel
  obtain ⟨m, hm, hc⟩ := Option.map_eq_some_iff.mp hlive
  refine ⟨hes, m, hm, hc, (counters_right_iff (stillClock 7 5) countHistory hes Key.k m hm hc).mpr ?_⟩
  rw [card_members]
  refine Nat.lt_of_le_of_lt (length_prefixScan_le _ _) ?_
  decide +kernel

end GameStore
