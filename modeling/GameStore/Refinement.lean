import GameStore.Representation

/-!
# The store refines the keyspace

Every write leaves its key held as the keyspace has it next; so the store, as a
whole, answers like the keyspace (which leaves `RAWCOUNT` open) over every run of
operations, compactions and restarts in which no call lists a hash field twice, no
count or index runs out, and each process starts with its clock above the versions
on disk.
-/

namespace GameStore

open Lib Std

/-! ## What the writes leave -/

section Writes

variable {p : ℕ} {d : Disk} {k : Bytes} {m : Meta} {w w' : World}

/-- A collection written back: nothing, or its metadata and its elements. -/
theorem represents_entry {α : Type} {c : Collection α} {a : α} {t : UInt64}
    (hgone : c.size a = 0 → d[metaKey k]? = none)
    (hleft : 0 < c.size a → k.length < 2 ^ 32 ∧ (c.put a).Filled ∧
      ∃ m, readMeta d k = some m ∧ m.expireMs = t ∧ Holds p d k m (c.put a)) :
    Represents p d k (c.entry a t) := by
  rw [Collection.entry]
  split
  · exact hgone ‹_›
  · exact hleft (Nat.pos_of_ne_zero ‹_›)

/-! ### Hashes -/

theorem HashMeta.members_eq {h : Table Bytes} (hm : HashMeta d k m h) : members d k m.version = keySet h := by
  ext f
  rw [mem_members, hm.records, mem_keySet]

/-- `hset` once the metadata is loaded or made. -/
theorem hset_represents (hk : k.length < 2 ^ 32) {h : Table Bytes}
    (hload : (loadOrCreate k TYPE_HASH fun m => m.setFieldCount 0).run exec w = (.ok m, w'))
    (hm : HashMeta w'.disk k m h) {pairs : List (Bytes × Bytes)} (hne : pairs ≠ [])
    (hnd : (pairs.map Prod.fst).Nodup) (hfit : (insertAll h pairs).size < 2 ^ 32) :
    ((hset k pairs).run exec w).1 = .ok ((insertAll h pairs).size - h.size : ℤ) ∧
      Represents p ((hset k pairs).run exec w).2.disk k (hashes.entry (insertAll h pairs) m.expireMs) := by
  have hn : absentPairs w'.disk k m.version pairs = ((pairs.map Prod.fst).toFinset \ keySet h).card := by
    rw [absentPairs_distinct _ _ hnd, hm.members_eq]
  have hsize := size_insertAll h pairs
  have hpos : 0 < (insertAll h pairs).size := by
    obtain ⟨q, hq⟩ := List.exists_mem_of_ne_nil _ hne
    rw [← card_keySet, keySet_insertAll, Finset.card_pos]
    exact ⟨q.1, Finset.mem_union_right _ (List.mem_toFinset.mpr (List.mem_map_of_mem hq))⟩
  rw [run_hset pairs hload, hn]
  constructor
  · have hreply : (((pairs.map Prod.fst).toFinset \ keySet h).card : ℤ) = (insertAll h pairs).size - h.size := by
      omega
    rw [hreply]
  · apply represents_entry
    · intro h0
      change (insertAll h pairs).size = 0 at h0
      omega
    · intro _
      have hr := fieldPuts_records (v := m.version) hk pairs
      refine ⟨hk, hpos, _, (readMeta_putMeta hr _ _ k).trans (if_pos rfl), rfl, hm.typed, ?_, ?_⟩
      · rw [Meta.fieldCount_setFieldCount (by simp [Meta.counted, hm.typed]), UInt32.toNat_add, hm.counted,
          UInt32.toNat_ofNat']
        omega
      · intro f
        refine (getElem?_record_putMeta _ _ _ (parseOwnerVersion_subkey hk m.version f)).trans ?_
        rw [getElem?_fieldPuts, getElem?_insertAll, hm.records]

theorem hdel_represents (hk : k.length < 2 ^ 32) {h : Table Bytes} (hlive : w.liveMeta k = some m)
    (hm : HashMeta w.disk k m h) (hpos : 0 < h.size) {fields : List Bytes} (hnd : fields.Nodup) :
    ((hdel k fields).run exec w).1 = .ok (h.size - (eraseAll h fields).size : ℤ) ∧
      Represents p ((hdel k fields).run exec w).2.disk k (hashes.entry (eraseAll h fields) m.expireMs) := by
  have honce : ListedOnce fields (keySet h) := fun f _ => List.nodup_iff_count_le_one.mp hnd f
  have hlen := (length_found_eq_iff (k := k) w.disk m.version fields).mpr (hm.members_eq ▸ honce)
  rw [hm.members_eq] at hlen
  have hsize := size_eraseAll h fields
  constructor
  · obtain ⟨w₁, -, hrun⟩ := run_hdel hk hlive hm.typed fields rfl
    have hreply : ((fields.toFinset ∩ keySet h).card : ℤ) = h.size - (eraseAll h fields).size := by omega
    rw [hrun, hlen, hreply]
  · have hleft := hdel_leaves hk hlive hm.typed hm.members_eq (hm.counted.trans (card_keySet h).symm)
      (Finset.card_pos.mp ((card_keySet h).symm ▸ hpos)) honce
    apply represents_entry
    · intro h0
      change (eraseAll h fields).size = 0 at h0
      cases hleft with
      | gone hnone hgone => exact hgone
      | left hsome hm' ht he hv hc hd =>
        rw [← keySet_eraseAll, ← Finset.card_pos, card_keySet] at hsome
        omega
    · intro hrest
      change 0 < (eraseAll h fields).size at hrest
      cases hleft with
      | gone hnone hgone =>
        rw [← keySet_eraseAll, ← Finset.card_eq_zero, card_keySet] at hnone
        omega
      | @left m' hsome hm' ht he hv hc hd =>
        refine ⟨hk, hrest, m', hm', he, ht, ?_, ?_⟩
        · rw [hc, ← keySet_eraseAll, card_keySet]
        · intro f
          rw [hv, hd, getElem?_eraseAll, hm.records]

/-! ### Sets -/

theorem HoldsSet.represents (hk : k.length < 2 ^ 32) {t : UInt64} {S : Finset Bytes} (h : HoldsSet d k t S)
    {s : Table Unit} (hs : keySet s = S) : Represents p d k (sets.entry s t) := by
  have hsize := card_keySet s
  apply represents_entry
  · intro h0
    change s.size = 0 at h0
    cases h with
    | gone h => exact h
    | holds hm hS he h =>
      rw [← Finset.card_pos, ← hs] at hS
      omega
  · intro hpos
    change 0 < s.size at hpos
    cases h with
    | gone h =>
      rw [hs, Finset.card_empty] at hsize
      omega
    | holds hm hS he h =>
      subst hs
      exact ⟨hk, hpos, _, hm, he, h⟩

theorem map_fst_units (listed : List Bytes) : (listed.map (·, ())).map Prod.fst = listed := by
  rw [List.map_map]
  exact List.map_id listed

/-- The members after `sadd` are few enough if they are in the table. -/
theorem smallSet_sadd (hk : k.length < 2 ^ 32) {S : Finset Bytes}
    (hload : (loadOrCreate k TYPE_SET fun m => m.setFieldCount 0).run exec w = (.ok m, w'))
    (hm : SetMeta w'.disk k m S) (hstored : S.Nonempty → readMeta w'.disk k = some m)
    {listed : List Bytes} (hne : listed ≠ []) (hfit : (S ∪ listed.toFinset).card < 2 ^ 32) :
    SmallSet ((sadd k listed).run exec w).2.disk k := by
  intro m₁ hm₁ ht₁
  obtain ⟨hset, -⟩ := missing_firsts (k := k) (v := m.version) w'.disk listed
  rw [run_sadd listed hload rfl] at hm₁ ⊢
  rw [hm.records] at hset
  set xs := missing w'.disk k m.version (firsts [] listed)
  by_cases hnil : xs = []
  · -- Nothing is written, and what is listed was there.
    rw [if_pos hnil] at hm₁ ⊢
    rw [hnil, List.toFinset_nil, eq_comm, Finset.sdiff_eq_empty_iff_subset] at hset
    have hS : S.Nonempty := by
      obtain ⟨x, hx⟩ := List.exists_mem_of_ne_nil _ hne
      exact ⟨x, hset (List.mem_toFinset.mpr hx)⟩
    rw [hstored hS] at hm₁
    rw [← Option.some.inj hm₁, hm.records]
    exact Nat.lt_of_le_of_lt (Finset.card_le_card Finset.subset_union_left) hfit
  · rw [if_neg hnil] at hm₁ ⊢
    have hmeta := (readMeta_putMeta (fieldPuts_records (v := m.version) hk (xs.map (·, []))) w'.disk
      (m.setFieldCount (m.fieldCount + UInt32.ofNat xs.length)) k).trans (if_pos rfl)
    rw [hmeta] at hm₁
    rw [← Option.some.inj hm₁]
    change (members _ k m.version).card < 2 ^ 32
    rw [members_putMeta hk, members_added, hm.records, hset, Finset.union_sdiff_self_eq_union]
    exact hfit

theorem sadd_represents (hk : k.length < 2 ^ 32) {s : Table Unit}
    (hload : (loadOrCreate k TYPE_SET fun m => m.setFieldCount 0).run exec w = (.ok m, w'))
    (hm : SetMeta w'.disk k m (keySet s)) (hstored : 0 < s.size → readMeta w'.disk k = some m)
    {listed : List Bytes} (hne : listed ≠ []) (hfit : (insertAll s (listed.map (·, ()))).size < 2 ^ 32) :
    ((sadd k listed).run exec w).1 = .ok ((insertAll s (listed.map (·, ()))).size - s.size : ℤ) ∧
      Represents p ((sadd k listed).run exec w).2.disk k
        (sets.entry (insertAll s (listed.map (·, ()))) m.expireMs) := by
  have hkeys : keySet (insertAll s (listed.map (·, ()))) = keySet s ∪ listed.toFinset := by
    rw [keySet_insertAll, map_fst_units]
  have hsize := size_insertAll s (listed.map (·, ()))
  rw [map_fst_units] at hsize
  have hstored' : (keySet s).Nonempty → readMeta w'.disk k = some m := by
    intro hS
    rw [← Finset.card_pos, card_keySet] at hS
    exact hstored hS
  have hsmall := smallSet_sadd hk hload hm hstored' hne (by rw [← hkeys, card_keySet]; exact hfit)
  obtain ⟨hr, hh⟩ := sadd_holds hk hload hm hstored' hne hsmall
  have hreply : ((listed.toFinset \ keySet s).card : ℤ) = (insertAll s (listed.map (·, ()))).size - s.size := by
    omega
  exact ⟨hreply ▸ hr, hh.represents hk hkeys⟩

theorem srem_represents (hk : k.length < 2 ^ 32) {s : Table Unit} (hlive : w.liveMeta k = some m)
    (hm : SetMeta w.disk k m (keySet s)) (hpos : 0 < s.size) (listed : List Bytes) :
    ((srem k listed).run exec w).1 = .ok (s.size - (eraseAll s listed).size : ℤ) ∧
      Represents p ((srem k listed).run exec w).2.disk k (sets.entry (eraseAll s listed) m.expireMs) := by
  have hsize := size_eraseAll s listed
  obtain ⟨hr, hh⟩ := srem_holds hk hlive hm (Finset.card_pos.mp ((card_keySet s).symm ▸ hpos)) listed
  have hreply : ((listed.toFinset ∩ keySet s).card : ℤ) = s.size - (eraseAll s listed).size := by omega
  exact ⟨hreply ▸ hr, hh.represents hk (keySet_eraseAll s listed)⟩

/-! ### Sorted sets -/

theorem HoldsZSet.represents (hk : k.length < 2 ^ 32) {t : UInt64} {score : Bytes → Option F64}
    (h : HoldsZSet d k t score) {z : Table F64} (hz : ∀ x : Bytes, z[x]? = score x) (hnum : Numeric score) :
    Represents p d k (zsets.entry z t) := by
  obtain rfl : (fun x : Bytes => z[x]?) = score := funext hz
  apply represents_entry
  · intro h0
    change z.size = 0 at h0
    generalize hs : (fun x : Bytes => z[x]?) = score at h
    cases h with
    | gone h => exact h
    | holds hm hsome he h =>
      subst hs
      have hpos := size_pos_iff.mpr hsome
      omega
  · intro hpos
    change 0 < z.size at hpos
    generalize hs : (fun x : Bytes => z[x]?) = score at h
    cases h with
    | gone h =>
      obtain ⟨x, hx⟩ := size_pos_iff.mp hpos
      have hnone : z[x]? = none := congrFun hs x
      rw [hnone] at hx
      cases hx
    | holds hm hsome he h =>
      subst hs
      exact ⟨hk, hpos, _, hm, he, h, hnum⟩

theorem getElem?_scoreAll (z : Table F64) (pairs : List (F64 × Bytes)) (x : Bytes) :
    (scoreAll z pairs)[x]? = zaddScores (z[·]?) pairs x := by
  have hmap : pairs.map (fun q => (q.2, newScore z[q.2]? q.1)) =
      (pairs.map Prod.swap).map fun q => (q.1, newScore z[q.1]? q.2) := by
    rw [List.map_map]
    rfl
  rw [scoreAll, hmap, getElem?_insertAll, ← List.map_reverse,
    lookup_map_values fun a s => newScore z[a]? s, zaddScores, lastListed]
  cases (pairs.map Prod.swap).reverse.lookup x with
  | none => rfl
  | some s => rfl

theorem zadd_represents (hk : k.length < 2 ^ 32) {z : Table F64}
    (hload : (loadOrCreate k TYPE_ZSET fun m => m.setFieldCount 0).run exec w = (.ok m, w'))
    (hm : ZSetMeta w'.disk k m (z[·]?)) (hnum : Numeric (z[·]?))
    (hstored : 0 < z.size → readMeta w'.disk k = some m) {pairs : List (F64 × Bytes)} (hne : pairs ≠ [])
    (hp : ∀ q ∈ pairs, q.1.isNaN = false) (hfit : (scoreAll z pairs).size < 2 ^ 32) :
    ((zadd k pairs).run exec w).1 = .ok ((scoreAll z pairs).size - z.size : ℤ) ∧
      Represents p ((zadd k pairs).run exec w).2.disk k (zsets.entry (scoreAll z pairs) m.expireMs) := by
  obtain ⟨hr, hup⟩ := zadd_upserted hk hload hm.dual pairs
  set d' := ((zadd k pairs).run exec w).2.disk
  have hscores : (fun x : Bytes => (scoreAll z pairs)[x]?) = zaddScores (z[·]?) pairs :=
    funext fun x => getElem?_scoreAll z pairs x
  have hdual : DualRecords d' k m.version fun x => (scoreAll z pairs)[x]? := hscores ▸ hup.dual
  have hcard : (members d' k m.version).card = (scoreAll z pairs).size :=
    card_eq_size fun x => hdual.mem_members
  have hcard₀ : (members w'.disk k m.version).card = z.size := card_eq_size fun x => hm.dual.mem_members
  have hgrown : (scoreAll z pairs).size =
      z.size + ((pairs.map Prod.snd).toFinset \ members w'.disk k m.version).card := by
    rw [← hcard, ← hcard₀, hup.grown, ← Finset.union_sdiff_self_eq_union,
      Finset.card_union_of_disjoint Finset.disjoint_sdiff]
  have hpos : 0 < (scoreAll z pairs).size := by
    obtain ⟨q, hq⟩ := List.exists_mem_of_ne_nil _ hne
    rw [← hcard, hup.grown, Finset.card_pos]
    exact ⟨q.2, Finset.mem_union_right _ (List.mem_toFinset.mpr (List.mem_map_of_mem hq))⟩
  constructor
  · have hreply : (((pairs.map Prod.snd).toFinset \ members w'.disk k m.version).card : ℤ) =
        (scoreAll z pairs).size - z.size := by omega
    exact hreply ▸ hr
  · apply represents_entry
    · intro h0
      change (scoreAll z pairs).size = 0 at h0
      omega
    · intro _
      have hnum' : Numeric fun x => (scoreAll z pairs)[x]? := hscores ▸ hnum.zadd hp
      rcases hup.stored with hsame | ⟨-, hmeta⟩
      · -- Nothing is written: every member listed is there, with a score equal to the one listed.
        have hall : z.size = (scoreAll z pairs).size := by rw [← hcard, ← hcard₀, hsame]
        refine ⟨hk, hpos, m, ?_, rfl, ⟨hm.typed, hdual, ?_⟩, hnum'⟩
        · rw [hsame]
          exact hstored (hall ▸ hpos)
        · rw [hsame]
          exact hm.counted
      · refine ⟨hk, hpos, _, hmeta, rfl, ⟨hm.typed, hdual, ?_⟩, hnum'⟩
        rw [Meta.fieldCount_setFieldCount (by simp [Meta.counted, hm.typed]), UInt32.toNat_add, hm.size_eq,
          UInt32.toNat_ofNat']
        change _ = (members d' k m.version).card
        omega

theorem zrem_represents (hk : k.length < 2 ^ 32) {z : Table F64} (hlive : w.liveMeta k = some m)
    (hm : ZSetMeta w.disk k m (z[·]?)) (hnum : Numeric (z[·]?)) (hpos : 0 < z.size) (listed : List Bytes) :
    ((zrem k listed).run exec w).1 = .ok (z.size - (eraseAll z listed).size : ℤ) ∧
      Represents p ((zrem k listed).run exec w).2.disk k (zsets.entry (eraseAll z listed) m.expireMs) := by
  have hmembers : members w.disk k m.version = keySet z := by
    ext x
    rw [hm.dual.mem_members, mem_keySet]
  have hsome : (members w.disk k m.version).Nonempty := by
    rw [hmembers, ← Finset.card_pos, card_keySet]
    exact hpos
  have hsize := size_eraseAll z listed
  obtain ⟨hr, hrem⟩ := zrem_removed hk hlive hm.typed hm.dual listed
  rw [hmembers] at hr
  have hreply : ((listed.toFinset ∩ keySet z).card : ℤ) = z.size - (eraseAll z listed).size := by omega
  refine ⟨hreply ▸ hr, (hrem.holdsZSet (readMeta_of_liveMeta hlive) hm hsome).represents hk ?_ (hnum.without listed)⟩
  intro x
  exact getElem?_eraseAll z listed x

/-! ### Lists -/

theorem push_represents (hk : k.length < 2 ^ 32) {l : List Bytes} {q : ℕ}
    (hload : (loadOrCreate k TYPE_LIST fun m =>
      m.setListBounds LIST_INITIAL_INDEX LIST_INITIAL_INDEX).run exec w = (.ok m, w'))
    (hm : ListMeta w'.disk k m l q) {values : List Bytes} (hne : values ≠ []) (left : Bool)
    (hq : q ≤ p) (hroom : p + values.length < 2 ^ 63) :
    ((push k values left).run exec w).1 = .ok ((values.foldl (pushOne left) l).length : ℤ) ∧
      Represents (p + values.length) ((push k values left).run exec w).2.disk k
        (lists.entry (values.foldl (pushOne left) l) m.expireMs) := by
  obtain ⟨m', hr, hmeta, he, -, hl⟩ := push_lists hk hload hm values left (by omega)
  have hlen := length_foldl_pushOne left values l
  have hpos : 0 < (values.foldl (pushOne left) l).length :=
    List.length_pos_of_ne_nil (foldl_pushOne_ne_nil hne left l)
  refine ⟨by rw [hlen]; exact hr, ?_⟩
  apply represents_entry
  · intro h0
    change (values.foldl (pushOne left) l).length = 0 at h0
    omega
  · intro _
    exact ⟨hk, hpos, m', hmeta, he, _, by omega, hl⟩

theorem pop_represents (hk : k.length < 2 ^ 32) {l : List Bytes} {q : ℕ} (hlive : w.liveMeta k = some m)
    (hm : ListMeta w.disk k m l q) (hl : 0 < l.length) (hq : q ≤ p) (count : ℕ) (left : Bool) :
    ((pop k count left).run exec w).1 = .ok (takeEnd left l count) ∧
      Represents p ((pop k count left).run exec w).2.disk k (lists.entry (dropEnd left l count) m.expireMs) := by
  obtain ⟨hr, hnone, hgone, hleft⟩ := pop_lists hk hlive hm count left
  have htake := length_takeEnd left l count
  have hdrop := length_dropEnd left l count
  refine ⟨hr, ?_⟩
  by_cases hzero : takeEnd left l count = []
  · -- The count is zero.
    rw [hzero, List.length_nil] at htake
    have hsame : dropEnd left l count = l := by
      obtain rfl : count = 0 := by omega
      cases left <;> simp [dropEnd]
    rw [hnone hzero, hsame]
    apply represents_entry
    · intro h0
      change l.length = 0 at h0
      omega
    · intro _
      exact ⟨hk, hl, m, readMeta_of_liveMeta hlive, rfl, q, hq, hm⟩
  · apply represents_entry
    · intro h0
      exact hgone hzero (List.eq_nil_of_length_eq_zero h0)
    · intro hpos
      obtain ⟨m', hmeta, he, -, hm'⟩ := hleft hzero (List.ne_nil_of_length_pos hpos)
      exact ⟨hk, hpos, m', hmeta, he, q, hq, hm'⟩

end Writes

/-! ## One operation -/

/-- How many values an operation pushes. -/
def KeyOp.pushCount : KeyOp → ℕ
  | .push values _ => values.length
  | _ => 0

/-- What the command layer makes sure of (lists of elements are not empty, scores and their
bounds are numbers) and that no hash field is listed twice in one call. -/
structure KeyOp.Proper (op : KeyOp) (key : Key) : Prop where
  called : op.wellCalled
  distinct : (Op.keyed key op).distinct
  numeric : (Op.keyed key op).numeric
  bounded : op.bounded

section Keyed

variable {p : ℕ} {w : World} {key : Key} {op : KeyOp} {m : Meta}

theorem ne_nil_of_called {α : Type} {l : List α} (h : (!l.isEmpty) = true) : l ≠ [] := by
  rintro rfl
  cases h

theorem size_of_fits {α : Type} {c : Collection α} {a : α} {t : UInt64}
    (h : ∀ e, c.entry a t = some e → e.value.Fits) (hc : (c.put a).Fits → c.size a < 2 ^ 32) :
    c.size a < 2 ^ 32 := by
  by_cases h0 : c.size a = 0
  · omega
  · apply hc
    exact h ⟨c.put a, t⟩ (by rw [Collection.entry, if_neg h0])

/-- The operation does what its program does. -/
theorem realizes_of_run {α : Type} (key : Key) (op : KeyOp) {prog : StoreM α} {g : α → Reply} {a : α}
    {e : Option Entry} (hop : op.prog key.1 = g <$> prog) (hr : (prog.run exec w).1 = .ok a)
    (hleft : Represents p (prog.run exec w).2.disk key.1 e) : Realizes p w key op (.ok (g a), e) := by
  obtain ⟨hreply, hs⟩ := run_keyed key op hop hr
  exact ⟨hreply, hs ▸ hleft⟩

/-- Loading makes nothing new of a live key of the right type. -/
theorem run_loadOrCreate_typed {k : Bytes} {t : UInt8} (hlive : w.liveMeta k = some m) (ht : m.typeId = t)
    (init : Meta → Meta) : ∃ w', (loadOrCreate k t init).run exec w = (.ok m, w') ∧ w'.disk = w.disk := by
  obtain ⟨w', hload, hst, -⟩ := run_loadOrCreate_live hlive init
  rw [ht] at hload
  exact ⟨w', hload, by rw [hst]⟩

/-- A key that is overwritten, whatever it was. -/
theorem realizes_set (value : Bytes) (expireMs : UInt64) (later : UInt64) (e : Option Entry) :
    Realizes p w key (.set value expireMs) ((KeyOp.set value expireMs).outcome later e) := by
  obtain ⟨w', hrun, hm⟩ := run_set key.1 value expireMs w
  obtain ⟨hr, hs⟩ := run_keyed key (.set value expireMs) rfl (congrArg Prod.fst hrun)
  refine ⟨hr, ?_⟩
  rw [hs, hrun]
  exact ⟨key.2, trivial, _, hm, rfl, rfl, rfl⟩

/-! ### On an absent key -/

theorem realizes_gone_absent (habs : w.Absent key.1) {α : Type} {f : Option Meta → StoreM α} {g : α → Reply}
    {a : α} (hop : op.prog key.1 = g <$> (loadLiveMeta key.1 >>= f)) (hf : f none = pure a) :
    Realizes p w key op (.ok (g a), none) := by
  obtain ⟨w', hload, hst, -⟩ := run_loadLiveMeta_absent habs
  have hrun : (loadLiveMeta key.1 >>= f).run exec w = (.ok a, w') := by
    rw [Prog.run_bind_ok _ hload, hf]
    rfl
  obtain ⟨hr, hs⟩ := run_keyed key op hop (congrArg Prod.fst hrun)
  refine ⟨hr, ?_⟩
  rw [hs, hrun]
  exact hst.getElem?_metaKey

theorem realizes_typed_absent (habs : w.Absent key.1) {α : Type} {t : UInt8} {f : Option Meta → StoreM α}
    {g : α → Reply} {a : α} (hop : op.prog key.1 = g <$> (loadTyped key.1 t >>= f)) (hf : f none = pure a) :
    Realizes p w key op (.ok (g a), none) := by
  rw [loadTyped, Prog.bind_assoc] at hop
  exact realizes_gone_absent habs hop hf

/-- The operations that change a key but do not make one. -/
theorem realizes_removal_absent (hop : op.isRead = false) (hcreate : op.creates = false)
    (habs : w.Absent key.1) (later : UInt64) : Realizes p w key op (op.outcome later none) := by
  cases op with
  | del => exact realizes_gone_absent habs rfl rfl
  | expireAt deadline => exact realizes_gone_absent habs rfl rfl
  | hdel fields =>
    have hout : (KeyOp.hdel fields).outcome later none = (.ok (.int 0), none) := by
      simp [KeyOp.outcome, Collection.update, Collection.entry, hashes, shrunk]
    rw [hout]
    exact realizes_typed_absent habs rfl rfl
  | srem members =>
    have hout : (KeyOp.srem members).outcome later none = (.ok (.int 0), none) := by
      simp [KeyOp.outcome, Collection.update, Collection.entry, sets, shrunk]
    rw [hout]
    exact realizes_typed_absent habs rfl rfl
  | zrem members =>
    have hout : (KeyOp.zrem members).outcome later none = (.ok (.int 0), none) := by
      simp [KeyOp.outcome, Collection.update, Collection.entry, zsets, shrunk]
    rw [hout]
    exact realizes_typed_absent habs rfl rfl
  | pop count left =>
    have hout : (KeyOp.pop count left).outcome later none = (.ok (.values []), none) := by
      cases left <;> simp [KeyOp.outcome, Collection.update, Collection.entry, lists, takeEnd, dropEnd]
    rw [hout]
    exact realizes_typed_absent habs rfl rfl
  | set value expireMs => exact realizes_set value expireMs later none
  | _ => first | (cases hop; done) | cases hcreate

theorem fieldCount_newMeta {t : UInt8} {v : UInt64} (ht : (newMeta t v).counted) :
    ((newMeta t v).setFieldCount 0).fieldCount.toNat = 0 := by
  rw [Meta.fieldCount_setFieldCount ht]
  rfl

/-- The operations that make a key. -/
theorem realizes_creation_absent (hop : op.creates) (hproper : op.Proper key) (habs : w.Absent key.1)
    (hnew : Unused w.disk key.1 w.nextIssue) (later : UInt64)
    (hfit : ∀ e, (op.outcome later none).2 = some e → e.value.Fits) (hroom : p + op.pushCount < 2 ^ 63) :
    Realizes (p + op.pushCount) w key op (op.outcome later none) := by
  have hcalled := hproper.called
  cases op with
  | hset pairs =>
    obtain ⟨w', hload, hd⟩ := run_loadOrCreate_absent habs TYPE_HASH fun m => m.setFieldCount 0
    have hunused : Unused w'.disk key.1 w.nextIssue := hd ▸ hnew.erase (metaKey key.1)
    have hm : HashMeta w'.disk key.1 ((newMeta TYPE_HASH w.nextIssue).setFieldCount 0) ∅ :=
      ⟨rfl, fieldCount_newMeta rfl, fun f => hunused _ (parseOwnerVersion_subkey key.2 _ f)⟩
    obtain ⟨hr, hleft⟩ := hset_represents (p := p) key.2 hload hm (ne_nil_of_called hcalled) hproper.distinct
      (size_of_fits hfit id)
    exact (realizes_of_run key (.hset pairs) rfl hr hleft :)
  | sadd listed =>
    obtain ⟨w', hload, hd⟩ := run_loadOrCreate_absent habs TYPE_SET fun m => m.setFieldCount 0
    have hunused : Unused w'.disk key.1 w.nextIssue := hd ▸ hnew.erase (metaKey key.1)
    have hm : SetMeta w'.disk key.1 ((newMeta TYPE_SET w.nextIssue).setFieldCount 0)
        (keySet (∅ : Table Unit)) := ⟨rfl, fieldCount_newMeta rfl, members_unused key.2 hunused⟩
    obtain ⟨hr, hleft⟩ := sadd_represents (p := p) (s := ∅) key.2 hload hm (fun h => absurd h (by simp))
      (ne_nil_of_called hcalled) (size_of_fits hfit id)
    exact (realizes_of_run key (.sadd listed) rfl hr hleft :)
  | zadd pairs =>
    obtain ⟨w', hload, hd⟩ := run_loadOrCreate_absent habs TYPE_ZSET fun m => m.setFieldCount 0
    have hunused : Unused w'.disk key.1 w.nextIssue := hd ▸ hnew.erase (metaKey key.1)
    have hm : ZSetMeta w'.disk key.1 ((newMeta TYPE_ZSET w.nextIssue).setFieldCount 0)
        fun x => (∅ : Table F64)[x]? := by
      refine ⟨rfl, dualRecords_unused key.2 hunused, ?_⟩
      rw [fieldCount_newMeta rfl]
      exact (Finset.card_eq_zero.mpr (members_unused key.2 hunused)).symm
    obtain ⟨hr, hleft⟩ := zadd_represents (p := p) (z := ∅) key.2 hload hm numeric_none
      (fun h => absurd h (by simp)) (ne_nil_of_called hcalled) hproper.numeric (size_of_fits hfit id)
    exact (realizes_of_run key (.zadd pairs) rfl hr hleft :)
  | push values left =>
    obtain ⟨w', hload, hd⟩ := run_loadOrCreate_absent habs TYPE_LIST fun m =>
      m.setListBounds LIST_INITIAL_INDEX LIST_INITIAL_INDEX
    have hunused : Unused w'.disk key.1 w.nextIssue := hd ▸ hnew.erase (metaKey key.1)
    obtain ⟨hr, hleft⟩ := push_represents key.2 hload (listMeta_new key.2 hunused) (ne_nil_of_called hcalled)
      left (Nat.zero_le p) hroom
    exact (realizes_of_run key (.push values left) rfl hr hleft :)
  | _ => cases hop

/-! ### On a live key -/

/-- A write on a live key of its type. -/
theorem realizes_write_live (hop : op.isRead = false) (hproper : op.Proper key)
    (hlive : w.liveMeta key.1 = some m) {e : Entry} (hf : e.value.Filled) (he : m.expireMs = e.expireMs)
    (hv : Holds p w.disk key.1 m e.value) (ht : ∀ t, op.wants = some t → e.value.typeId = t) (later : UInt64)
    (hfit : ∀ e', (op.outcome later (some e)).2 = some e' → e'.value.Fits) (hroom : p + op.pushCount < 2 ^ 63) :
    Realizes (p + op.pushCount) w key op (op.outcome later (some e)) := by
  have hcalled := hproper.called
  have hmeta := readMeta_of_liveMeta hlive
  obtain ⟨v, expireMs⟩ := e
  obtain rfl : m.expireMs = expireMs := he
  -- A value of another type is ruled out by `ht`.
  cases op with
  | set value expireMs => exact realizes_set value expireMs later _
  | del =>
    obtain ⟨w', hload, -⟩ := run_loadLiveMeta_live hlive
    have hrun : (GameStore.del key.1).run exec w =
        (.ok true, { w' with disk := w'.disk.erase (metaKey key.1), versions := w'.versions.erase key.1 }) := by
      rw [GameStore.del, Prog.run_bind_ok _ hload]
      rfl
    obtain ⟨hr, hs⟩ := run_keyed key .del rfl (congrArg Prod.fst hrun)
    refine ⟨hr, ?_⟩
    rw [hs, hrun]
    exact (getElem?_erase_bytes _ _ _).trans (if_pos rfl)
  | expireAt deadline =>
    obtain ⟨w', hrun, hm'⟩ := run_expireAt_live hlive deadline
    obtain ⟨hr, hs⟩ := run_keyed key (.expireAt deadline) rfl (congrArg Prod.fst hrun)
    have hd : ((Op.keyed key (.expireAt deadline)).run w).2.disk = w'.disk := by rw [hs, hrun]
    have hun := run_expireAt_untouched key hlive deadline (hd ▸ hm')
    exact ⟨hr, key.2, hf, _, hd ▸ hm', rfl, (hv.congr key.2 hun.records).expire deadline⟩
  | hset pairs =>
    cases v with
    | hash h =>
      obtain ⟨w', hload, hd⟩ := run_loadOrCreate_typed hlive hv.typed fun m => m.setFieldCount 0
      obtain ⟨hr, hleft⟩ := hset_represents (p := p) key.2 hload (hd ▸ hv) (ne_nil_of_called hcalled)
        hproper.distinct (size_of_fits hfit id)
      exact (realizes_of_run key (.hset pairs) rfl hr hleft :)
    | _ => cases ht _ rfl
  | hdel fields =>
    cases v with
    | hash h =>
      obtain ⟨hr, hleft⟩ := hdel_represents (p := p) key.2 hlive hv hf hproper.distinct
      exact (realizes_of_run key (.hdel fields) rfl hr hleft :)
    | _ => cases ht _ rfl
  | sadd listed =>
    cases v with
    | set s =>
      obtain ⟨w', hload, hd⟩ := run_loadOrCreate_typed hlive hv.typed fun m => m.setFieldCount 0
      obtain ⟨hr, hleft⟩ := sadd_represents (p := p) key.2 hload (hd ▸ hv) (fun _ => hd ▸ hmeta)
        (ne_nil_of_called hcalled) (size_of_fits hfit id)
      exact (realizes_of_run key (.sadd listed) rfl hr hleft :)
    | _ => cases ht _ rfl
  | srem listed =>
    cases v with
    | set s =>
      obtain ⟨hr, hleft⟩ := srem_represents (p := p) key.2 hlive hv hf listed
      exact (realizes_of_run key (.srem listed) rfl hr hleft :)
    | _ => cases ht _ rfl
  | zadd pairs =>
    cases v with
    | zset z =>
      obtain ⟨w', hload, hd⟩ := run_loadOrCreate_typed hlive hv.1.typed fun m => m.setFieldCount 0
      obtain ⟨hr, hleft⟩ := zadd_represents (p := p) key.2 hload (hd ▸ hv.1) hv.2 (fun _ => hd ▸ hmeta)
        (ne_nil_of_called hcalled) hproper.numeric (size_of_fits hfit id)
      exact (realizes_of_run key (.zadd pairs) rfl hr hleft :)
    | _ => cases ht _ rfl
  | zrem listed =>
    cases v with
    | zset z =>
      obtain ⟨hr, hleft⟩ := zrem_represents (p := p) key.2 hlive hv.1 hv.2 hf listed
      exact (realizes_of_run key (.zrem listed) rfl hr hleft :)
    | _ => cases ht _ rfl
  | push values left =>
    cases v with
    | list l =>
      obtain ⟨q, hq, hl⟩ := hv
      obtain ⟨w', hload, hd⟩ := run_loadOrCreate_typed hlive hl.typed fun m =>
        m.setListBounds LIST_INITIAL_INDEX LIST_INITIAL_INDEX
      obtain ⟨hr, hleft⟩ := push_represents key.2 hload (hd ▸ hl) (ne_nil_of_called hcalled) left hq hroom
      exact (realizes_of_run key (.push values left) rfl hr hleft :)
    | _ => cases ht _ rfl
  | pop count left =>
    cases v with
    | list l =>
      obtain ⟨q, hq, hl⟩ := hv
      obtain ⟨hr, hleft⟩ := pop_represents key.2 hlive hl hf hq count left
      exact (realizes_of_run key (.pop count left) rfl hr hleft :)
    | _ => cases ht _ rfl
  | _ => cases hop

/-- An operation does to a represented key what it does to the keyspace. -/
theorem KeyOp.realizes {ks : Keyspace} (hrep : Represents p w.disk key.1 ks[key.1]?) (hahead : w.Ahead)
    (hproper : op.Proper key)
    (hfit : ∀ e, (op.outcome (w.ms.get 1) (ks.alive w.ms.head key.1)).2 = some e → e.value.Fits)
    (hroom : p + op.pushCount < 2 ^ 63) :
    Realizes (p + op.pushCount) w key op (op.outcome (w.ms.get 1) (ks.alive w.ms.head key.1)) := by
  have hgrow : p ≤ p + op.pushCount := Nat.le_add_right p _
  cases ha : ks.alive w.ms.head key.1 with
  | none =>
    rw [ha] at hfit
    have habs := hrep.absent ha
    cases hread : op.isRead with
    | true => exact realizes_read_absent hread habs _
    | false =>
      cases hcreate : op.creates with
      | true => exact realizes_creation_absent hcreate hproper habs (hahead.unused key.1) _ hfit hroom
      | false => exact realizes_removal_absent hread hcreate habs _
  | some e =>
    rw [ha] at hfit
    obtain ⟨hf, m, hlive, he, hv⟩ := hrep.live ha
    by_cases ht : ∀ t, op.wants = some t → e.value.typeId = t
    · cases hread : op.isRead with
      | true =>
        obtain ⟨r, hout, hr⟩ := reply_read_live hread hproper.bounded hlive hf he hv (by omega) ht
        rw [hout]
        exact realizes_read_live hread hlive hf he (hv.mono hgrow) hr
      | false => exact realizes_write_live hread hproper hlive hf he hv ht _ hfit hroom
    · push Not at ht
      obtain ⟨t, hwants, hne⟩ := ht
      exact realizes_mistyped hwants hlive hf he (hv.mono hgrow) hne _

end Keyed

/-! ## The whole store -/

/-- The store holds the keyspace, and is ready to issue new versions and to be compacted. -/
structure Refines (p : ℕ) (w : World) (ks : Keyspace) : Prop where
  keys : ∀ k, Represents p w.disk k ks[k]?
  agrees : w.Agrees
  ahead : w.Ahead

/-- The clock as an operation started now would read it. -/
def Clock.moment (c : Clock) : Moment := ⟨c.ms.head, c.ms.get 1⟩

/-- What is asked of an operation. -/
def Op.Proper : Op → Prop
  | .keyed key op => op.Proper key
  | _ => True

def Op.pushCount : Op → ℕ
  | .keyed _ op => op.pushCount
  | _ => 0

section Refines

variable {p : ℕ} {w : World} {ks : Keyspace}

theorem Represents.isSome_eq {d : Disk} {k : Bytes} {e : Option Entry} (h : Represents p d k e) :
    d[metaKey k]?.isSome = e.isSome := by
  cases e with
  | none => rw [show d[metaKey k]? = none from h]; rfl
  | some e =>
    obtain ⟨-, -, m, hm, -⟩ := h
    obtain ⟨raw, hraw, -⟩ := Option.bind_eq_some_iff.mp hm
    rw [hraw]
    rfl

/-- `DBSIZE` counts the entries. -/
theorem Refines.dbsize (h : Refines p w ks) : (prefixScan w.disk [META_PREFIX]).length = ks.size := by
  have hlen : (((prefixScan w.disk [META_PREFIX]).map fun item =>
      item.1.drop [META_PREFIX].length).toFinset).card = (prefixScan w.disk [META_PREFIX]).length := by
    rw [List.toFinset_card_of_nodup (suffixes_nodup w.disk [META_PREFIX]), List.length_map]
  rw [← hlen]
  apply card_eq_size
  intro k
  rw [← (h.keys k).isSome_eq, List.mem_toFinset, List.mem_map, Option.isSome_iff_exists]
  constructor
  · rintro ⟨item, hi, rfl⟩
    obtain ⟨hraw, x, hx⟩ := mem_prefixScan.mp (show (item.1, item.2) ∈ _ from hi)
    refine ⟨item.2, ?_⟩
    rw [← hx] at hraw ⊢
    exact hraw
  · rintro ⟨raw, hraw⟩
    exact ⟨(metaKey k, raw), mem_prefixScan.mpr ⟨hraw, k, rfl⟩, rfl⟩

theorem Refines.compact (h : Refines p w ks) (sel : Bytes → Bool) : Refines p (w.compact sel) ks where
  keys k := by
    apply (h.keys k).congr (getElem?_compact_metaKey sel w.toStore k)
    intro m hm hc raw hraw
    have hv : diskVersion w.disk k = some m.version := diskVersion_eq_some.mpr ⟨m, hm, hc, rfl⟩
    have hkeep : w.filterKeeps raw = true := by
      rw [Store.filterKeeps, ((liveKept_iff_agrees.mpr h.agrees) k m.version hv).2 raw hraw, Bool.or_true]
    refine (getElem?_compact sel w.toStore raw).trans (if_neg ?_)
    simp [hkeep]
  agrees k v hv := h.agrees k v ((diskVersion_compact sel w.toStore k).symm.trans hv)
  ahead v hv := h.ahead v (onDisk_compact hv)

theorem Refines.opened (h : Refines p w ks) {clock : Clock} (hahead : (World.opened w.disk clock).Ahead) :
    Refines p (World.opened w.disk clock) ks where
  keys k := by
    rw [opened_eq]
    exact h.keys k
  agrees k v hv := (exact_opened w.disk clock k).trans hv
  ahead := hahead

/-- One operation: the reply of the keyspace, if it has one, and the keyspace after it. -/
theorem Refines.step (h : Refines p w ks) {op : Op} (hproper : op.Proper)
    (hissue : w.nextIssue < w.nextIssue + 1) (hfit : (ks.step w.moment op).2.Fits)
    (hroom : p + op.pushCount < 2 ^ 63) :
    (∀ r, (ks.step w.moment op).1 = some r → (op.run w).1 = r) ∧
      Refines (p + op.pushCount) (op.run w).2 (ks.step w.moment op).2 := by
  have hagrees := agrees_run h.agrees op
  have hahead := ahead_run op hissue h.ahead
  cases op with
  | keyed key op =>
    have hleft : ∀ e, (op.outcome (w.ms.get 1) (ks.alive w.ms.head key.1)).2 = some e → e.value.Fits := by
      intro e he
      apply hfit key.1 e
      exact (Keyspace.getElem?_put _ _ _ _).trans ((if_pos rfl).trans he)
    have hreal := KeyOp.realizes (h.keys key.1) h.ahead hproper hleft hroom
    refine ⟨fun r hr => hreal.reply.trans (Option.some.inj hr), ?_, hagrees, hahead⟩
    intro k
    change Represents _ _ k (ks.put key.1 _)[k]?
    rw [Keyspace.getElem?_put]
    split
    · rename_i hk
      rw [← hk]
      exact hreal.left
    · rename_i hk
      apply ((h.keys k).mono (Nat.le_add_right p _)).congr
      · exact op.run_getElem?_of_ne key hk (.inl rfl) w
      · intro m hm hc raw hraw
        exact op.run_getElem?_of_ne key hk (.inr ⟨_, hraw⟩) w
  | dbsize =>
    refine ⟨fun r hr => ?_, h.keys, hagrees, hahead⟩
    rw [← Option.some.inj hr, ← h.dbsize]
    rfl
  | rawSubkeyCount =>
    refine ⟨fun r hr => ?_, h.keys, hagrees, hahead⟩
    cases hr
  | compact => exact ⟨fun r hr => Option.some.inj hr, h.compact fun _ => true⟩
  | flushAll =>
    refine ⟨fun r hr => Option.some.inj hr, fun k => ?_, hagrees, hahead⟩
    change (flushed w.disk)[metaKey k]? = none
    rw [getElem?_flushed, if_pos (.inl ⟨k, rfl⟩)]

end Refines

/-! ## Runs -/

/-- What a store goes through: requests, compactions of its own accord, and restarts. -/
inductive Deed
  | ask (op : Op)
  | compaction (sel : Bytes → Bool)
  | restart (clock : Clock)

def Deed.apply (w : World) : Deed → World
  | .ask op => (op.run w).2
  | .compaction sel => w.compact sel
  | .restart clock => World.opened w.disk clock

def World.afterDeeds (w : World) (ds : List Deed) : World := ds.foldl Deed.apply w

/-- The replies of the store. -/
def World.replies : World → List Deed → List (Except EngineError Reply)
  | _, [] => []
  | w, .ask op :: ds => (op.run w).1 :: World.replies (op.run w).2 ds
  | w, d :: ds => World.replies (d.apply w) ds

/-- The requests, each with the clock as it was read. -/
def World.requests : World → List Deed → List (Moment × Op)
  | _, [] => []
  | w, .ask op :: ds => (w.moment, op) :: World.requests (op.run w).2 ds
  | w, d :: ds => World.requests (d.apply w) ds

/-- Every request is proper, versions do not run out, and each process starts with its clock
above the versions it finds. -/
def WellRun : World → List Deed → Prop
  | _, [] => True
  | w, .ask op :: ds => op.Proper ∧ w.nextIssue < w.nextIssue + 1 ∧ WellRun (op.run w).2 ds
  | w, .compaction sel :: ds => WellRun (w.compact sel) ds
  | w, .restart clock :: ds =>
    (World.opened w.disk clock).Ahead ∧ WellRun (World.opened w.disk clock) ds

/-- How many values are pushed to lists. -/
def pushedBy (ops : List (Moment × Op)) : ℕ := (ops.map fun q => q.2.pushCount).sum

/-- The keyspace gives the reply, or leaves it open. -/
def Allows (spec : Option (Except EngineError Reply)) (got : Except EngineError Reply) : Prop :=
  ∀ r, spec = some r → got = r

theorem Refines.run {ds : List Deed} {p : ℕ} {w : World} {ks : Keyspace} (h : Refines p w ks)
    (hds : WellRun w ds) (hsmall : ks.StaysSmall (w.requests ds)) (hroom : p + pushedBy (w.requests ds) < 2 ^ 63) :
    List.Forall₂ Allows (ks.replies (w.requests ds)) (w.replies ds) ∧
      Refines (p + pushedBy (w.requests ds)) (w.afterDeeds ds) (ks.after (w.requests ds)) := by
  induction ds generalizing p w ks with
  | nil => exact ⟨.nil, h⟩
  | cons d ds ih =>
    cases d with
    | ask op =>
      obtain ⟨hproper, hissue, hrest⟩ := hds
      obtain ⟨hfit, hsmall⟩ := hsmall
      have hsum : pushedBy (w.requests (.ask op :: ds)) = op.pushCount + pushedBy ((op.run w).2.requests ds) := by
        simp [pushedBy, World.requests]
      rw [hsum, ← Nat.add_assoc] at hroom ⊢
      obtain ⟨hreply, hstep⟩ := h.step hproper hissue hfit (by omega)
      obtain ⟨hreplies, hend⟩ := ih hstep hrest hsmall hroom
      exact ⟨.cons hreply hreplies, hend⟩
    | compaction sel => exact ih (h.compact sel) hds hsmall hroom
    | restart clock => exact ih (h.opened hds.1) hds.2 hsmall hroom

theorem refines_opened (clock : Clock) : Refines 0 (World.opened ∅ clock) ∅ where
  keys k := by
    rw [opened_eq]
    exact ExtTreeMap.getElem?_empty
  agrees k v hv := (exact_opened ∅ clock k).trans hv
  ahead v hv := by
    rw [opened_eq] at hv
    exact absurd hv (not_onDisk_empty v)

/-- From an empty store on, through requests, compactions and restarts, every reply of the
store is that of the keyspace to the same requests, except that to `RAWCOUNT`, which the
keyspace leaves open; and the store ends up holding the keyspace. Each request is proper:
it lists no hash field twice, no empty list and no score or bound that is not a number.
The versions last, and each process starts with its clock above those on the disk. Hashes,
sets and sorted sets stay below `2^32` elements, and fewer than `2^63` values are pushed. -/
theorem store_refines_keyspace (clock : Clock) (ds : List Deed) (hds : WellRun (World.opened ∅ clock) ds)
    (hsmall : Keyspace.StaysSmall ∅ ((World.opened ∅ clock).requests ds))
    (hpush : pushedBy ((World.opened ∅ clock).requests ds) < 2 ^ 63) :
    List.Forall₂ Allows (Keyspace.replies ∅ ((World.opened ∅ clock).requests ds))
        ((World.opened ∅ clock).replies ds) ∧
      Refines (pushedBy ((World.opened ∅ clock).requests ds)) ((World.opened ∅ clock).afterDeeds ds)
        (Keyspace.after ∅ ((World.opened ∅ clock).requests ds)) := by
  have hrun := (refines_opened clock).run hds hsmall (by omega)
  rwa [Nat.zero_add] at hrun

/-- Two keys are built, one is asked for another type, a compaction and a restart go by, and
the key is built anew as a list. -/
def rebuiltHistory : List Deed :=
  [.ask (.keyed Key.k (.hset [([102], [49]), ([103], [50])])),
    .ask (.keyed Key.l (.zadd [(F64.POS_ZERO, [120]), (F64.NEG_ZERO, [121])])),
    .ask (.keyed Key.k (.sadd [[120]])), .compaction fun _ => true, .restart (stillClock 7 9),
    .ask (.keyed Key.k .del), .ask (.keyed Key.k (.push [[97]] true)), .ask .dbsize]

theorem wellRun_rebuiltHistory : WellRun (World.opened ∅ (stillClock 7 5)) rebuiltHistory :=
  ⟨⟨rfl, by simp [Op.distinct], trivial, trivial⟩, by decide +kernel,
    ⟨rfl, trivial, by simp [Op.numeric]; decide, trivial⟩, by decide +kernel,
    ⟨rfl, trivial, trivial, trivial⟩, by decide +kernel, by decide +kernel,
    ⟨rfl, trivial, trivial, trivial⟩, by decide +kernel, ⟨rfl, trivial, trivial, trivial⟩, by decide +kernel,
    trivial, by decide +kernel, trivial⟩

theorem staysSmall_rebuiltHistory :
    Keyspace.StaysSmall ∅ ((World.opened ∅ (stillClock 7 5)).requests rebuiltHistory) := by
  apply staysSmall_of_listed (n := 0)
  · intro k e he
    rw [ExtTreeMap.getElem?_empty] at he
    cases he
  · decide +kernel

theorem store_refines_rebuiltHistory : WellRun (World.opened ∅ (stillClock 7 5)) rebuiltHistory ∧
    List.Forall₂ Allows (Keyspace.replies ∅ ((World.opened ∅ (stillClock 7 5)).requests rebuiltHistory))
      [.ok (.int 2), .ok (.int 2), .error .wrongType, .ok (.bool true), .ok (.int 1), .ok (.int 2)] := by
  have hreplies : (World.opened ∅ (stillClock 7 5)).replies rebuiltHistory =
      [.ok (.int 2), .ok (.int 2), .error .wrongType, .ok (.bool true), .ok (.int 1), .ok (.int 2)] := by
    decide +kernel
  rw [← hreplies]
  exact ⟨wellRun_rebuiltHistory, (store_refines_keyspace (stillClock 7 5) rebuiltHistory wellRun_rebuiltHistory
    staysSmall_rebuiltHistory (by decide +kernel)).1⟩

end GameStore
