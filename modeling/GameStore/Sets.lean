import GameStore.Sequential

/-!
# Sets are finite sets

The members of a set are the suffixes of its records, its size is a counter in the
metadata. Over every sequential run the two agree, so that the operations are
those of a finite set, and a key that is absent is the empty one.
-/

namespace GameStore

open Lib Std

section Sets

variable {k : Bytes} {v : UInt64}

/-! ## What `sadd` and `srem` write -/

/-- The listed elements that have no record. -/
def missing (d : Disk) (k : Bytes) (v : UInt64) (xs : List Bytes) : List Bytes :=
  xs.filter fun x => d[subkey k v x]?.isNone

theorem run_saddSteps (members seen : List Bytes) (t : Tally) (w : World) :
    ∃ seen', (members.foldlM (saddStep k v) (seen, t)).run exec w =
      (.ok (seen', (missing w.disk k v (firsts seen members)).foldl
        (fun t x => t.add [.put (subkey k v x) []]) t), w) := by
  induction members generalizing seen t with
  | nil => exact ⟨seen, rfl⟩
  | cons x members ih =>
    rw [List.foldlM_cons, firsts]
    by_cases hx : x ∈ seen
    · obtain ⟨seen', h⟩ := ih seen t
      refine ⟨seen', ?_⟩
      rw [if_pos hx, saddStep, if_pos hx]
      exact h
    · rw [if_neg hx, saddStep, if_neg hx]
      have hget : exec (.get (subkey k v x)) w = (w.disk[subkey k v x]?, w) := rfl
      dsimp only
      rw [Prog.perform_bind, Prog.call_bind, Prog.run_call, hget]
      cases hd : w.disk[subkey k v x]? with
      | none =>
        obtain ⟨seen', h⟩ := ih (x :: seen) (t.add [.put (subkey k v x) []])
        refine ⟨seen', ?_⟩
        rw [missing, List.filter_cons_of_pos (by simp [hd])]
        exact h
      | some raw =>
        obtain ⟨seen', h⟩ := ih (x :: seen) t
        refine ⟨seen', ?_⟩
        rw [missing, List.filter_cons_of_neg (by simp [hd])]
        exact h

theorem run_sadd {w w' : World} {m : Meta} (members : List Bytes)
    (h : (loadOrCreate k TYPE_SET fun m => m.setFieldCount 0).run exec w = (.ok m, w')) {xs : List Bytes}
    (hxs : missing w'.disk k m.version (firsts [] members) = xs) :
    (sadd k members).run exec w = (.ok xs.length, if xs = [] then w' else
      { w' with disk := applyBatch w'.disk (fieldPuts k m.version (xs.map (·, [])) ++
        [.put (metaKey k) (m.setFieldCount (m.fieldCount + UInt32.ofNat xs.length)).encode]) }) := by
  obtain ⟨seen, hloop⟩ := run_saddSteps (k := k) (v := m.version) members [] ⟨m.fieldCount, 0, []⟩ w'
  have hputs : xs.flatMap (fun x => [WriteOp.put (subkey k m.version x) []]) =
      fieldPuts k m.version (xs.map (·, [])) := by
    rw [fieldPuts, List.map_map, List.map_eq_flatMap]
    rfl
  rw [hxs, foldl_add, hputs] at hloop
  rw [sadd, Prog.run_bind_ok _ h, Prog.run_bind_ok _ hloop]
  by_cases hnil : xs = []
  · subst hnil
    rfl
  · have hpos : 0 < (0 : ℤ) + xs.length := by
      have := List.length_pos_of_ne_nil hnil
      omega
    rw [if_pos hpos, if_neg hnil]
    simp only [Int.zero_add, List.nil_append]
    rfl

/-- The end of a removal that deletes the records of the elements `xs`. -/
theorem run_finishDeletes (hk : k.length < 2 ^ 32) {w w' : World} (hst : w'.toStore = w.toStore) (m : Meta)
    (xs : List Bytes) :
    (finishRemoval k m (xs.foldl (fun t x => t.drop [.delete (subkey k m.version x)])
      ⟨m.fieldCount, 0, []⟩)).run exec w' = (.ok xs.length, if xs = [] then w'
      else if m.fieldCount.toNat ≤ xs.length then
        { w' with
          disk := (applyBatch w.disk (xs.map fun x => .delete (subkey k m.version x))).erase (metaKey k)
          versions := w.versions.erase k }
      else { w' with disk := applyBatch w.disk ((xs.map fun x => .delete (subkey k m.version x)) ++
        [.put (metaKey k) (m.setFieldCount (UInt32.ofNat (m.fieldCount.toNat - xs.length))).encode]) }) := by
  have hd : w'.disk = w.disk := by rw [hst]
  have hv : w'.versions = w.versions := by rw [hst]
  have hgather := gathered_foldl (k := k) (v := m.version) (fun x => [.delete (subkey _ _ x)])
    (fun x => Records.single (parseOwnerVersion_subkey hk _ x)) (by simp [WriteOp.value])
    (by simp [WriteOp.key]) m xs
  have hbatch := foldl_drop_batch (fun x => [.delete (subkey k m.version x)]) xs ⟨m.fieldCount, 0, []⟩
  rw [List.nil_append, ← List.map_eq_flatMap] at hbatch
  rw [run_finishRemoval hgather, hbatch, hd, hv]

theorem run_srem {w : World} {m : Meta} (hk : k.length < 2 ^ 32) (hlive : w.liveMeta k = some m)
    (ht : m.typeId = TYPE_SET) (members : List Bytes) {xs : List Bytes}
    (hxs : found w.disk k m.version (firsts [] members) = xs) :
    ∃ w', w'.toStore = w.toStore ∧ (srem k members).run exec w = (.ok xs.length, if xs = [] then w'
      else if m.fieldCount.toNat ≤ xs.length then
        { w' with
          disk := (applyBatch w.disk (xs.map fun x => .delete (subkey k m.version x))).erase (metaKey k)
          versions := w.versions.erase k }
      else { w' with disk := applyBatch w.disk ((xs.map fun x => .delete (subkey k m.version x)) ++
        [.put (metaKey k) (m.setFieldCount (UInt32.ofNat (m.fieldCount.toNat - xs.length))).encode]) }) := by
  obtain ⟨w', hload, hst, -⟩ := run_loadTyped_live hlive
  have hd : w'.disk = w.disk := by rw [hst]
  obtain ⟨seen, hloop⟩ := run_sremSteps (k := k) (v := m.version) members [] ⟨m.fieldCount, 0, []⟩ w'
  rw [ht] at hload
  rw [hd, hxs] at hloop
  refine ⟨w', hst, ?_⟩
  rw [srem, Prog.run_bind_ok _ hload]
  dsimp only
  rw [Prog.run_bind_ok _ hloop, run_finishDeletes hk hst]

/-! ## The members -/

/-- The members under a version of the key: the suffixes of its records. -/
def members (d : Disk) (k : Bytes) (v : UInt64) : Finset Bytes :=
  ((prefixScan d (subkeyPrefix k v)).map fun item => item.1.drop (subkeyPrefix k v).length).toFinset

theorem mem_members {d : Disk} {x : Bytes} : x ∈ members d k v ↔ d[subkey k v x]?.isSome := by
  rw [members, List.mem_toFinset, mem_smembers_scan, Option.isSome_iff_exists]

theorem card_members (d : Disk) : (members d k v).card = (prefixScan d (subkeyPrefix k v)).length := by
  rw [members, List.toFinset_card_of_nodup (suffixes_nodup d _), List.length_map]

theorem members_congr {d d' : Disk} (hk : k.length < 2 ^ 32)
    (h : ∀ raw, RecordOf k v raw → d'[raw]? = d[raw]?) : members d' k v = members d k v := by
  ext x
  rw [mem_members, mem_members, h _ (parseOwnerVersion_subkey hk v x)]

theorem members_unused {d : Disk} (hk : k.length < 2 ^ 32) (h : Unused d k v) : members d k v = ∅ := by
  ext x
  rw [mem_members, h _ (parseOwnerVersion_subkey hk v x)]
  simp

theorem members_putMeta {d : Disk} (hk : k.length < 2 ^ 32) (recs : WriteBatch) (m : Meta) :
    members (applyBatch d (recs ++ [.put (metaKey k) m.encode])) k v =
      members (applyBatch d recs) k v :=
  members_congr hk fun _ hraw => getElem?_record_putMeta d recs m hraw

theorem members_added (d : Disk) (xs : List Bytes) :
    members (applyBatch d (fieldPuts k v (xs.map (·, [])))) k v = members d k v ∪ xs.toFinset := by
  ext x
  have hlookup : ((xs.map fun x => (x, ([] : Bytes))).reverse.lookup x).isSome ↔ x ∈ xs := by
    rw [List.lookup_isSome_iff]
    simp
  rw [mem_members, getElem?_fieldPuts, Option.isSome_or, Bool.or_eq_true, hlookup, Finset.mem_union,
    mem_members, List.mem_toFinset]
  exact or_comm

theorem getElem?_deleteFields (d : Disk) (xs : List Bytes) (x : Bytes) :
    (applyBatch d (xs.map fun x => .delete (subkey k v x)))[subkey k v x]? =
      if x ∈ xs then none else d[subkey k v x]? := by
  have hdel := getElem?_deleteAll d (xs.map fun x => (subkey k v x, ([] : Bytes))) (subkey k v x)
  rw [List.map_map, List.map_map] at hdel
  refine hdel.trans ?_
  congr 1
  simp [subkey_inj]

theorem members_deleted (d : Disk) (xs : List Bytes) :
    members (applyBatch d (xs.map fun x => .delete (subkey k v x))) k v = members d k v \ xs.toFinset := by
  ext x
  rw [mem_members, getElem?_deleteFields, Finset.mem_sdiff, mem_members, List.mem_toFinset]
  by_cases hx : x ∈ xs
  · simp [hx]
  · simp [hx]

/-- The members a call adds are those listed that were not there, each once. -/
theorem missing_firsts (d : Disk) (xs : List Bytes) :
    (missing d k v (firsts [] xs)).toFinset = xs.toFinset \ members d k v ∧
      (missing d k v (firsts [] xs)).length = (xs.toFinset \ members d k v).card := by
  have hset : (missing d k v (firsts [] xs)).toFinset = xs.toFinset \ members d k v := by
    ext x
    simp [missing, mem_firsts, mem_members]
  refine ⟨hset, ?_⟩
  rw [← hset]
  exact (List.toFinset_card_of_nodup ((firsts_nodup [] xs).filter _)).symm

theorem found_firsts (d : Disk) (xs : List Bytes) :
    (found d k v (firsts [] xs)).toFinset = xs.toFinset ∩ members d k v ∧
      (found d k v (firsts [] xs)).length = (xs.toFinset ∩ members d k v).card := by
  have hset : (found d k v (firsts [] xs)).toFinset = xs.toFinset ∩ members d k v := by
    ext x
    simp [found, mem_firsts, mem_members]
  refine ⟨hset, ?_⟩
  rw [← hset]
  exact (List.toFinset_card_of_nodup ((firsts_nodup [] xs).filter _)).symm

/-! ## The set a key holds -/

/-- The metadata `m` goes with the members `S`. -/
structure SetMeta (d : Disk) (k : Bytes) (m : Meta) (S : Finset Bytes) : Prop where
  typed : m.typeId = TYPE_SET
  counted : m.fieldCount.toNat = S.card
  records : members d k m.version = S

/-- The key is stored with the members `S` and the deadline `expireMs`; without
members there is no key. -/
inductive HoldsSet (d : Disk) (k : Bytes) (expireMs : UInt64) : Finset Bytes → Prop
  | gone (h : d[metaKey k]? = none) : HoldsSet d k expireMs ∅
  | holds {S : Finset Bytes} {m : Meta} (hm : readMeta d k = some m) (hS : S.Nonempty)
      (he : m.expireMs = expireMs) (h : SetMeta d k m S) : HoldsSet d k expireMs S

/-- A set has fewer than `2 ^ 32` members. -/
def SmallSet (d : Disk) (k : Bytes) : Prop :=
  ∀ m, readMeta d k = some m → m.typeId = TYPE_SET → (members d k m.version).card < 2 ^ 32

/-- `sadd` once the metadata is loaded or made. -/
theorem sadd_holds (hk : k.length < 2 ^ 32) {w w' : World} {m : Meta} {S : Finset Bytes}
    (hload : (loadOrCreate k TYPE_SET fun m => m.setFieldCount 0).run exec w = (.ok m, w'))
    (hm : SetMeta w'.disk k m S) (hstored : S.Nonempty → readMeta w'.disk k = some m)
    {listed : List Bytes} (hne : listed ≠ [])
    (hroom : SmallSet ((sadd k listed).run exec w).2.disk k) :
    ((sadd k listed).run exec w).1 = .ok ((listed.toFinset \ S).card : ℤ) ∧
      HoldsSet ((sadd k listed).run exec w).2.disk k m.expireMs (S ∪ listed.toFinset) := by
  have hrun := run_sadd listed hload rfl
  obtain ⟨hset, hlen⟩ := missing_firsts (k := k) (v := m.version) w'.disk listed
  rw [hm.records] at hset hlen
  set xs := missing w'.disk k m.version (firsts [] listed)
  have hunion : S ∪ xs.toFinset = S ∪ listed.toFinset := by
    rw [hset, Finset.union_sdiff_self_eq_union]
  have hlisted : (S ∪ listed.toFinset).Nonempty := by
    obtain ⟨x, hx⟩ := List.exists_mem_of_ne_nil _ hne
    exact ⟨x, Finset.mem_union_right _ (List.mem_toFinset.mpr hx)⟩
  rw [hrun] at hroom ⊢
  refine ⟨by rw [hlen], ?_⟩
  by_cases hnil : xs = []
  · -- Everything listed is there already.
    have hsame : S = S ∪ listed.toFinset := by rw [← hunion, hnil, List.toFinset_nil, Finset.union_empty]
    rw [← hsame] at hlisted ⊢
    rw [if_pos hnil]
    exact .holds (hstored hlisted) hlisted rfl hm
  · rw [if_neg hnil] at hroom ⊢
    have hmeta := (readMeta_putMeta (fieldPuts_records (v := m.version) hk (xs.map (·, []))) w'.disk
      (m.setFieldCount (m.fieldCount + UInt32.ofNat xs.length)) k).trans (if_pos rfl)
    have hrecords : members (applyBatch w'.disk (fieldPuts k m.version (xs.map (·, [])) ++ [.put
        (metaKey k) (m.setFieldCount (m.fieldCount + UInt32.ofNat xs.length)).encode])) k m.version =
        S ∪ listed.toFinset := by
      rw [members_putMeta hk, members_added, hm.records, hunion]
    refine .holds hmeta hlisted rfl ⟨hm.typed, ?_, hrecords⟩
    have hcard : (S ∪ listed.toFinset).card = S.card + xs.length := by
      rw [hlen, ← Finset.union_sdiff_self_eq_union, Finset.card_union_of_disjoint Finset.disjoint_sdiff]
    have hfit : (S ∪ listed.toFinset).card < 2 ^ 32 := by
      rw [← hrecords]
      exact hroom (m.setFieldCount (m.fieldCount + UInt32.ofNat xs.length)) hmeta hm.typed
    rw [Meta.fieldCount_setFieldCount (by simp [Meta.counted, hm.typed]), UInt32.toNat_add, hm.counted,
      UInt32.toNat_ofNat']
    omega

theorem srem_holds (hk : k.length < 2 ^ 32) {w : World} {m : Meta} {S : Finset Bytes}
    (hlive : w.liveMeta k = some m) (hm : SetMeta w.disk k m S) (hS : S.Nonempty) (listed : List Bytes) :
    ((srem k listed).run exec w).1 = .ok ((listed.toFinset ∩ S).card : ℤ) ∧
      HoldsSet ((srem k listed).run exec w).2.disk k m.expireMs (S \ listed.toFinset) := by
  obtain ⟨w', hst, hrun⟩ := run_srem hk hlive hm.typed listed rfl
  obtain ⟨hset, hlen⟩ := found_firsts (k := k) (v := m.version) w.disk listed
  rw [hm.records] at hset hlen
  set xs := found w.disk k m.version (firsts [] listed)
  have hdiff : S \ xs.toFinset = S \ listed.toFinset := by
    rw [hset, Finset.sdiff_inter_self_right]
  have hcard : (S \ listed.toFinset).card = S.card - xs.length := by
    rw [hlen, Finset.card_sdiff]
  rw [hrun]
  refine ⟨by rw [hlen], ?_⟩
  by_cases hnil : xs = []
  · have hsame : S = S \ listed.toFinset := by rw [← hdiff, hnil, List.toFinset_nil, Finset.sdiff_empty]
    rw [← hsame, if_pos hnil, hst]
    exact .holds (readMeta_of_liveMeta hlive) hS rfl hm
  · rw [if_neg hnil]
    by_cases hall : m.fieldCount.toNat ≤ xs.length
    · -- The last member goes, and the key with it.
      have hempty : S \ listed.toFinset = ∅ := by
        rw [← Finset.card_eq_zero, hcard]
        rw [hm.counted] at hall
        omega
      rw [if_pos hall, hempty]
      exact .gone ((getElem?_erase_bytes _ _ _).trans (if_pos rfl))
    · rw [if_neg hall]
      rw [hm.counted] at hall
      have hr : Records k m.version (xs.map fun x => .delete (subkey k m.version x)) := by
        intro op hop
        obtain ⟨x, -, rfl⟩ := List.mem_map.mp hop
        exact parseOwnerVersion_subkey hk _ x
      have hmeta := (readMeta_putMeta hr w.disk (m.setFieldCount
        (UInt32.ofNat (m.fieldCount.toNat - xs.length))) k).trans (if_pos rfl)
      have hrest : (S \ listed.toFinset).Nonempty := by
        rw [← Finset.card_pos, hcard]
        omega
      refine .holds hmeta hrest rfl ⟨hm.typed, ?_, ?_⟩
      · have hlt := m.fieldCount.toNat_lt
        rw [Meta.fieldCount_setFieldCount (by simp [Meta.counted, hm.typed]), UInt32.toNat_ofNat',
          Nat.mod_eq_of_lt (by omega), hm.counted, hcard]
      · exact (members_putMeta (v := m.version) hk _ _).trans (by rw [members_deleted, hm.records, hdiff])

/-! ## What the operations do -/

/-- A step of a run in which every set stays below `2 ^ 32` members. -/
def SetStep (w : World) (e : Event) : Prop :=
  InOrder w e ∧ ∀ key : Key, SmallSet (e.apply w).disk key.1

/-- On a key that holds `S` (nothing, if it is absent) with the deadline `expireMs`,
the operations are those of a finite set. -/
structure ActsAsSet (w : World) (key : Key) (expireMs : UInt64) (S : Finset Bytes) : Prop where
  scard : ((Op.keyed key .scard).run w).1 = .ok (.int S.card)
  smembers : ∃ l, ((Op.keyed key .smembers).run w).1 = .ok (.values l) ∧ l.Nodup ∧ l.toFinset = S
  sismember : ∀ x, ((Op.keyed key (.sismember x)).run w).1 = .ok (.bool (x ∈ S))
  sadd : ∀ listed, SetStep w (.run (.keyed key (.sadd listed))) →
    ((Op.keyed key (.sadd listed)).run w).1 = .ok (.int (listed.toFinset \ S).card) ∧
      HoldsSet ((Op.keyed key (.sadd listed)).run w).2.disk key.1 expireMs (S ∪ listed.toFinset)
  srem : ∀ listed, SetStep w (.run (.keyed key (.srem listed))) →
    ((Op.keyed key (.srem listed)).run w).1 = .ok (.int (listed.toFinset ∩ S).card) ∧
      HoldsSet ((Op.keyed key (.srem listed)).run w).2.disk key.1 expireMs (S \ listed.toFinset)

variable {w : World}

theorem actsAsSet_live {key : Key} {m : Meta} {S : Finset Bytes} (hlive : w.liveMeta key.1 = some m)
    (hm : SetMeta w.disk key.1 m S) (hS : S.Nonempty) : ActsAsSet w key m.expireMs S where
  scard := by
    have hcount := run_storedCount_live hlive
    rw [hm.typed, hm.counted] at hcount
    exact (run_keyed key .scard rfl hcount).1
  smembers := by
    refine ⟨_, run_smembers_live hlive hm.typed, suffixes_nodup _ _, hm.records⟩
  sismember x := by
    refine (run_sismember_live hlive hm.typed x).trans ?_
    congr 2
    rw [Bool.eq_iff_iff, ← mem_members, hm.records, decide_eq_true_iff]
  sadd listed hstep := by
    obtain ⟨w', hload, hst, -⟩ := run_loadOrCreate_live hlive fun m => m.setFieldCount 0
    rw [hm.typed] at hload
    have hd : w'.disk = w.disk := by rw [hst]
    have hroom : SmallSet ((GameStore.sadd key.1 listed).run exec w).2.disk key.1 := by
      have := hstep.2 key
      change SmallSet ((Reply.int <$> GameStore.sadd key.1 listed).run exec w).2.disk key.1 at this
      rwa [Prog.run_map] at this
    obtain ⟨hreply, hholds⟩ := sadd_holds key.2 hload (hd ▸ hm)
      (fun _ => hd ▸ readMeta_of_liveMeta hlive) (by simpa [Op.wellCalled, KeyOp.wellCalled] using hstep.1.1)
      hroom
    obtain ⟨hr, hs⟩ := run_keyed key (.sadd listed) rfl hreply
    exact ⟨hr, hs ▸ hholds⟩
  srem listed hstep := by
    obtain ⟨hreply, hholds⟩ := srem_holds key.2 hlive hm hS listed
    obtain ⟨hr, hs⟩ := run_keyed key (.srem listed) rfl hreply
    exact ⟨hr, hs ▸ hholds⟩

theorem actsAsSet_absent {key : Key} (hw : w.Orderly) (habs : w.Absent key.1) :
    ActsAsSet w key 0 ∅ where
  scard := run_read_absent key rfl habs
  smembers := ⟨[], run_read_absent key rfl habs, List.nodup_nil, rfl⟩
  sismember x := run_read_absent key rfl habs
  sadd listed hstep := by
    obtain ⟨w', hload, hd⟩ := run_loadOrCreate_absent habs TYPE_SET fun m => m.setFieldCount 0
    have hnew : Unused w'.disk key.1 w.nextIssue :=
      hd ▸ (hw.unused (show (KeyOp.sadd listed).creates from rfl) hstep.1.2 habs).erase (metaKey key.1)
    have hm : SetMeta w'.disk key.1 ((newMeta TYPE_SET w.nextIssue).setFieldCount 0) ∅ :=
      ⟨rfl, congrArg UInt32.toNat (Meta.fieldCount_setFieldCount (m := newMeta TYPE_SET _) rfl 0),
        members_unused key.2 hnew⟩
    have hroom : SmallSet ((GameStore.sadd key.1 listed).run exec w).2.disk key.1 := by
      have := hstep.2 key
      change SmallSet ((Reply.int <$> GameStore.sadd key.1 listed).run exec w).2.disk key.1 at this
      rwa [Prog.run_map] at this
    obtain ⟨hreply, hholds⟩ := sadd_holds key.2 hload hm (fun h => absurd rfl h.ne_empty)
      (by simpa [Op.wellCalled, KeyOp.wellCalled] using hstep.1.1) hroom
    obtain ⟨hr, hs⟩ := run_keyed key (.sadd listed) rfl hreply
    exact ⟨hr, hs ▸ hholds⟩
  srem listed hstep := by
    obtain ⟨w', hload, hst, -⟩ := run_loadTyped_absent habs TYPE_SET
    have hrun : (GameStore.srem key.1 listed).run exec w = (.ok 0, w') := by
      rw [GameStore.srem, Prog.run_bind_ok _ hload]
      rfl
    obtain ⟨hr, hs⟩ := run_keyed key (.srem listed) rfl (congrArg Prod.fst hrun)
    rw [hr, hs, hrun, Finset.inter_empty, Finset.empty_sdiff]
    exact ⟨rfl, .gone hst.getElem?_metaKey⟩

/-! ## Whole runs -/

/-- The counter of a set is the number of its members, and there are some. -/
def SetCounted (d : Disk) (k : Bytes) (m : Meta) : Prop :=
  (members d k m.version).Nonempty ∧ SetMeta d k m (members d k m.version)

theorem setCounted_untouched {d d' : Disk} {key : Key} {m m' : Meta} (h : Untouched key.1 d d' m m')
    (hm : SetCounted d key.1 m) : SetCounted d' key.1 m' := by
  have hrecords : members d' key.1 m'.version = members d key.1 m.version := by
    rw [h.same]
    exact members_congr key.2 h.records
  refine ⟨hrecords ▸ hm.1, ?_, ?_, rfl⟩
  · rw [h.same]
    exact hm.2.typed
  · rw [hrecords, h.same]
    exact hm.2.counted

theorem HoldsSet.setCounted {d : Disk} {expireMs : UInt64} {S : Finset Bytes} {m : Meta}
    (h : HoldsSet d k expireMs S) (hm : readMeta d k = some m) : SetCounted d k m := by
  cases h with
  | gone h =>
    rw [readMeta, h] at hm
    cases hm
  | holds hm' hS he h =>
    obtain rfl : m = _ := Option.some.inj (hm.symm.trans hm')
    rw [SetCounted, h.records]
    exact ⟨hS, h⟩

/-- On a key that is no live set of another type, the operations are those of a set. -/
theorem actsAsSet (hw : w.Orderly) (hkept : Kept TYPE_SET SetCounted w.disk) (key : Key)
    (htyped : ∀ m, w.liveMeta key.1 = some m → m.typeId = TYPE_SET) : ∃ expireMs S, ActsAsSet w key expireMs S := by
  cases hlive : w.liveMeta key.1 with
  | none => exact ⟨0, ∅, actsAsSet_absent hw (hw.absent hlive)⟩
  | some m =>
    obtain ⟨hS, hm⟩ := hkept key m (readMeta_of_liveMeta hlive) (htyped m hlive)
    exact ⟨m.expireMs, _, actsAsSet_live hlive hm hS⟩

theorem setsKept_step {e : Event} (he : SetStep w e) (hw : w.Orderly)
    (hkept : Kept TYPE_SET SetCounted w.disk) : Kept TYPE_SET SetCounted (e.apply w).disk := by
  match e with
  | .failing op n => exact he.1.elim
  | .restart clock => exact he.1.elim
  | .run op =>
    refine kept_run (fun m hm => composite_of_type (.inr (.inl hm)))
      (fun d d' key m m' h => setCounted_untouched h) hw he.1.ascending hkept ?_
    rintro key op' rfl hkind htyped m' hm'
    obtain ⟨expireMs, S, hacts⟩ := actsAsSet hw hkept key htyped
    cases op' with
    | sadd listed => exact (hacts.sadd listed he).2.setCounted hm'
    | srem listed => exact (hacts.srem listed he).2.setCounted hm'
    | _ => cases hkind

/-- In every state of a sequential run from an empty store: a live set acts as the
finite set of its members, of which there are some, one to a record; an absent key
acts as the empty set. -/
theorem sets_refine_finite_sets (clock : Clock) (es : List Event)
    (hes : Steps SetStep (World.opened ∅ clock) es) (key : Key) :
    (∀ m, ((World.opened ∅ clock).after es).liveMeta key.1 = some m → m.typeId = TYPE_SET →
      ∃ S : Finset Bytes, S.Nonempty ∧
        S = members ((World.opened ∅ clock).after es).disk key.1 m.version ∧
        S.card = (prefixScan ((World.opened ∅ clock).after es).disk
          (subkeyPrefix key.1 m.version)).length ∧
        ActsAsSet ((World.opened ∅ clock).after es) key m.expireMs S) ∧
    (((World.opened ∅ clock).after es).liveMeta key.1 = none →
      ActsAsSet ((World.opened ∅ clock).after es) key 0 ∅) := by
  have hstart : (World.opened ∅ clock).Orderly ∧ Kept TYPE_SET SetCounted (World.opened ∅ clock).disk := by
    refine ⟨orderly_opened clock, fun key m hm => ?_⟩
    rw [opened_eq, readMeta, ExtTreeMap.getElem?_empty] at hm
    cases hm
  obtain ⟨hw, hkept⟩ := hes.induction (I := fun w => w.Orderly ∧ Kept TYPE_SET SetCounted w.disk)
    (fun w e he h => ⟨orderly_step he.1.ascending h.1, setsKept_step he h.1 h.2⟩) hstart
  constructor
  · intro m hlive ht
    obtain ⟨hS, hm⟩ := hkept key m (readMeta_of_liveMeta hlive) ht
    exact ⟨_, hS, rfl, card_members _, actsAsSet_live hlive hm hS⟩
  · intro hlive
    exact actsAsSet_absent hw (hw.absent hlive)

end Sets

/-- Short runs do not come near the limit. -/
theorem setStep_of_check {w : World} {op : Op} (hcall : op.wellCalled)
    (h : op.prog.Always exec (fun o w => o.issuesAbove w) w)
    (hsize : (op.run w).2.disk.toList.length < 2 ^ 32) : SetStep w (.run op) := by
  refine ⟨inOrder_of_check hcall h, fun key m _ _ => ?_⟩
  rw [card_members]
  exact Nat.lt_of_le_of_lt (length_prefixScan_le _ _) hsize

/-- A set is built with a repeated member, loses one, and is deleted and built anew;
another key stays out of it. -/
def setHistory : List Event :=
  [.run (.keyed Key.k (.sadd [[120], [121], [120]])), .run (.keyed Key.k (.srem [[120], [122]])),
    .run (.keyed Key.k .del), .run (.keyed Key.k (.sadd [[122], [121]]))]

theorem sets_refine_setHistory : Steps SetStep (World.opened ∅ (stillClock 7 5)) setHistory ∧
    (∃ S expireMs, S.Nonempty ∧
      ActsAsSet ((World.opened ∅ (stillClock 7 5)).after setHistory) Key.k expireMs S) ∧
    ActsAsSet ((World.opened ∅ (stillClock 7 5)).after setHistory) Key.l 0 ∅ := by
  have hes : Steps SetStep (World.opened ∅ (stillClock 7 5)) setHistory :=
    ⟨setStep_of_check rfl (by decide +kernel) (by decide +kernel),
      setStep_of_check rfl (by decide +kernel) (by decide +kernel),
      setStep_of_check rfl (by decide +kernel) (by decide +kernel),
      setStep_of_check rfl (by decide +kernel) (by decide +kernel), trivial⟩
  have hlive : (((World.opened ∅ (stillClock 7 5)).after setHistory).liveMeta Key.k.1).map Meta.typeId =
      some TYPE_SET := by decide +kernel
  obtain ⟨m, hm, ht⟩ := Option.map_eq_some_iff.mp hlive
  obtain ⟨S, hS, -, -, hacts⟩ :=
    (sets_refine_finite_sets (stillClock 7 5) setHistory hes Key.k).1 m hm ht
  exact ⟨hes, ⟨S, m.expireMs, hS, hacts⟩,
    (sets_refine_finite_sets (stillClock 7 5) setHistory hes Key.l).2 (by decide +kernel)⟩

end GameStore
