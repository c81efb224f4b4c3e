import GameStore.Creation

/-!
# Reading a key right after its creation
-/

namespace GameStore

open Lib Std

section Readback

variable {k : Bytes} {v : UInt64} {w : World}

theorem fieldPuts_records (hk : k.length < 2 ^ 32) (pairs : List (Bytes × Bytes)) :
    Records k v (fieldPuts k v pairs) := by
  intro op hop
  obtain ⟨p, -, rfl⟩ := List.mem_map.mp hop
  exact parseOwnerVersion_subkey hk v p.1

theorem memberPuts_records (hk : k.length < 2 ^ 32) (eff : List (Bytes × F64)) :
    Records k v (eff.flatMap (memberPuts k v)) := by
  intro op hop
  obtain ⟨p, -, hop⟩ := List.mem_flatMap.mp hop
  obtain rfl | rfl : op = _ ∨ op = _ := by simpa [memberPuts] using hop
  · exact parseOwnerVersion_subkey hk v p.1
  · exact parseOwnerVersion_zscoreKey hk v p.2 p.1

theorem readMeta_afterCreation {recs : WriteBatch} (hr : Records k v recs) (m : Meta) :
    readMeta (afterCreation w k recs m).disk k = some m :=
  (readMeta_putMeta hr w.disk m k).trans (if_pos rfl)

theorem getElem?_afterCreation_field (hk : k.length < 2 ^ 32) (hnew : Unused w.disk k v)
    (pairs : List (Bytes × Bytes)) (m : Meta) (f : Bytes) :
    (afterCreation w k (fieldPuts k v pairs) m).disk[subkey k v f]? = pairs.reverse.lookup f := by
  have hf : RecordOf k v (subkey k v f) := parseOwnerVersion_subkey hk v f
  rw [afterCreation, getElem?_record_putMeta _ _ _ hf, getElem?_fieldPuts, hnew _ hf, Option.or_none]

/-! ## Hashes and sets -/

theorem hgetall_afterCreation (hk : k.length < 2 ^ 32) (hnew : Unused w.disk k v)
    (pairs : List (Bytes × Bytes)) {m : Meta} (ht : m.typeId = TYPE_HASH) (hv : m.version = v)
    (he : m.expireMs = 0) : ∃ l, ((hgetall k).run exec
        (afterCreation w k (fieldPuts k v pairs) m)).1 = .ok l ∧ (l.map Prod.fst).Nodup ∧
      ∀ f value, (f, value) ∈ l ↔ pairs.reverse.lookup f = some value := by
  subst hv
  have hm := readMeta_afterCreation (w := w) (fieldPuts_records (v := m.version) hk pairs) m
  rw [run_hgetall hm he ht]
  refine ⟨_, rfl, ?_, fun f value => ?_⟩
  · rw [List.map_map]
    exact suffixes_nodup _ _
  · rw [mem_hgetall_scan, getElem?_afterCreation_field hk hnew]

theorem run_smembers {w : World} {m : Meta} (h : readMeta w.disk k = some m)
    (he : m.expireMs = 0) (ht : m.typeId = TYPE_SET) : (smembers k).run exec w =
      (.ok ((prefixScan w.disk (subkeyPrefix k m.version)).map
        fun item => item.1.drop (subkeyPrefix k m.version).length), w) := by
  rw [smembers, ← ht, Prog.run_bind_ok _ (run_loadTyped h he)]
  rfl

theorem mem_smembers_scan {d : Disk} {x : Bytes} :
    x ∈ (prefixScan d (subkeyPrefix k v)).map (fun item => item.1.drop (subkeyPrefix k v).length) ↔
      ∃ value, d[subkey k v x]? = some value := by
  simp only [← mem_hgetall_scan, List.mem_map, Prod.mk.injEq]
  constructor
  · rintro ⟨item, hi, rfl⟩
    exact ⟨item.2, item, hi, rfl, rfl⟩
  · rintro ⟨value, item, hi, hx, -⟩
    exact ⟨item, hi, hx⟩

theorem smembers_afterCreation (hk : k.length < 2 ^ 32) (hnew : Unused w.disk k v)
    (seen : List Bytes) {m : Meta} (ht : m.typeId = TYPE_SET) (hv : m.version = v)
    (he : m.expireMs = 0) : ∃ l, ((smembers k).run exec
        (afterCreation w k (fieldPuts k v (seen.reverse.map (·, []))) m)).1 = .ok l ∧ l.Nodup ∧
      ∀ x, x ∈ l ↔ x ∈ seen := by
  subst hv
  have hm := readMeta_afterCreation (w := w)
    (fieldPuts_records (v := m.version) hk (seen.reverse.map (·, []))) m
  rw [run_smembers hm he ht]
  refine ⟨_, rfl, suffixes_nodup _ _, fun x => ?_⟩
  simp only [mem_smembers_scan, getElem?_afterCreation_field hk hnew]
  rw [← Option.isSome_iff_exists, List.lookup_isSome_iff]
  simp

theorem normalizeRange_all {n : ℕ} (hn : n + 1 < 2 ^ 63) :
    normalizeRange 0 (-1) (Int64.ofNat (n + 1)) = some (0, n) := by
  have hlast : Int64.ofNat (n + 1) - 1 = Int64.ofNat n := by
    rw [Int64.ofNat_add]
    exact Int64.add_sub_cancel _ _
  have hlast' : -1 + Int64.ofNat (n + 1) = Int64.ofNat n := by
    rw [← hlast, Int64.add_comm, Int64.sub_eq_add_neg]
  have hpos : ¬ Int64.ofNat (n + 1) ≤ 0 := by
    rw [show (0 : Int64) = Int64.ofNat 0 from rfl, Int64.ofNat_le_iff_le hn (by omega)]
    omega
  have hnonneg : ¬ Int64.ofNat n < 0 := by
    rw [show (0 : Int64) = Int64.ofNat 0 from rfl, Int64.ofNat_lt_iff_lt (by omega) (by omega)]
    omega
  have hmax : max (0 : Int64) 0 = 0 := rfl
  have hmin : min (Int64.ofNat n) (Int64.ofNat n) = Int64.ofNat n := ite_self _
  have hstart : ¬ (0 : Int64) < 0 := by decide
  have hstop : (-1 : Int64) < 0 := by decide
  simp only [normalizeRange, if_neg hpos, if_neg hstart, if_pos hstop, hlast, hlast', hmax, hmin,
    if_neg hnonneg, Int64.toUInt64_ofNat']
  rw [UInt64.toNat_ofNat', Nat.mod_eq_of_lt (by omega)]
  rfl

/-! ## Sorted sets -/

theorem mem_keys_upsertScore (eff : List (Bytes × F64)) (member : Bytes) (score : F64) (x : Bytes) :
    x ∈ (upsertScore eff member score).map Prod.fst ↔ x = member ∨ x ∈ eff.map Prod.fst := by
  induction eff with
  | nil => simp [upsertScore]
  | cons p eff ih =>
    obtain ⟨m, s⟩ := p
    rw [upsertScore]
    split
    · rename_i hm
      subst hm
      simp
    · rw [List.map_cons, List.mem_cons, ih, List.map_cons, List.mem_cons]
      tauto

theorem upsertScore_nodup {eff : List (Bytes × F64)} (h : (eff.map Prod.fst).Nodup) (member : Bytes)
    (score : F64) : ((upsertScore eff member score).map Prod.fst).Nodup := by
  induction eff with
  | nil => simp [upsertScore]
  | cons p eff ih =>
    obtain ⟨m, s⟩ := p
    rw [upsertScore]
    split
    · exact h
    · rename_i hne
      rw [List.map_cons, List.nodup_cons] at h ⊢
      refine ⟨fun hm => ?_, ih h.2⟩
      obtain hm | hm := (mem_keys_upsertScore eff member score m).mp hm
      · exact hne hm
      · exact h.1 hm

theorem lookup_upsertScore (eff : List (Bytes × F64)) (member : Bytes) (score : F64) (x : Bytes) :
    (upsertScore eff member score).lookup x = if x = member then some score else eff.lookup x := by
  induction eff with
  | nil => exact lookup_cons_eq x member score []
  | cons p eff ih =>
    obtain ⟨m, s⟩ := p
    rw [upsertScore]
    split
    · rename_i hm
      subst hm
      rw [lookup_cons_eq, lookup_cons_eq]
      split <;> rfl
    · rename_i hne
      rw [lookup_cons_eq, lookup_cons_eq, ih]
      by_cases hx : x = m
      · subst hx
        rw [if_pos rfl, if_neg hne, if_pos rfl]
      · rw [if_neg hx, if_neg hx]

theorem length_upsertScore_le (eff : List (Bytes × F64)) (member : Bytes) (score : F64) :
    (upsertScore eff member score).length ≤ eff.length + 1 := by
  induction eff with
  | nil => rfl
  | cons p eff ih =>
    rw [upsertScore]
    split
    · simp
    · exact Nat.succ_le_succ ih

theorem effectivePairs_concat (pairs : List (F64 × Bytes)) (p : F64 × Bytes) :
    effectivePairs (pairs ++ [p]) = upsertScore (effectivePairs pairs) p.2 p.1 := List.foldl_append

theorem effectivePairs_nodup (pairs : List (F64 × Bytes)) :
    ((effectivePairs pairs).map Prod.fst).Nodup := by
  induction pairs using List.reverseRecOn with
  | nil => exact List.nodup_nil
  | append_singleton pairs p ih =>
    rw [effectivePairs_concat]
    exact upsertScore_nodup ih _ _

/-- Each member counts with the last score listed for it. -/
theorem mem_effectivePairs {pairs : List (F64 × Bytes)} {x : Bytes} {s : F64} :
    (x, s) ∈ effectivePairs pairs ↔ (pairs.map Prod.swap).reverse.lookup x = some s := by
  rw [← lookup_eq_some_iff_mem (effectivePairs_nodup pairs)]
  induction pairs using List.reverseRecOn with
  | nil => rfl
  | append_singleton pairs p ih =>
    rw [effectivePairs_concat, lookup_upsertScore, List.map_append, List.map_singleton,
      lookup_reverse_concat]
    by_cases hx : x = p.2
    · simp [hx]
    · simp [hx, ih]

theorem length_effectivePairs_le (pairs : List (F64 × Bytes)) :
    (effectivePairs pairs).length ≤ pairs.length := by
  induction pairs using List.reverseRecOn with
  | nil => rfl
  | append_singleton pairs p ih =>
    rw [effectivePairs_concat, List.length_append, List.length_singleton]
    exact (length_upsertScore_le _ _ _).trans (Nat.succ_le_succ ih)

theorem zscoreKey_eq (s : F64) (x : Bytes) :
    zscoreKey k v s x = zscorePrefix k v ++ (encodeScore s ++ x) := List.append_assoc _ _ _

theorem subkey_ne_zscore (f rest : Bytes) : subkey k v f ≠ zscorePrefix k v ++ rest :=
  fun h => nomatch List.head_eq_of_cons_eq h

theorem getElem?_memberPuts_score (d : Disk) (eff : List (Bytes × F64)) (rest : Bytes) :
    (applyBatch d (eff.flatMap (memberPuts k v)))[zscorePrefix k v ++ rest]? =
      if rest ∈ eff.map (fun p => encodeScore p.2 ++ p.1) then some []
      else d[zscorePrefix k v ++ rest]? := by
  induction eff using List.reverseRecOn with
  | nil => simp
  | append_singleton eff p ih =>
    have hsplit : (eff ++ [p]).flatMap (memberPuts k v) = (eff.flatMap (memberPuts k v) ++
        [.put (subkey k v p.1) (encodeScore p.2)]) ++ [.put (zscoreKey k v p.2 p.1) []] := by
      simp [memberPuts]
    rw [hsplit, getElem?_applyBatch_concat, getElem?_applyBatch_concat, ih]
    simp only [WriteOp.key, WriteOp.value, zscoreKey_eq, List.append_right_inj, subkey_ne_zscore,
      if_false, List.map_append, List.map_singleton, List.mem_append, List.mem_singleton]
    by_cases hr : encodeScore p.2 ++ p.1 = rest
    · rw [if_pos hr, if_pos (.inr hr.symm)]
    · rw [if_neg hr]
      simp only [Ne.symm hr, or_false]

/-- A score-index suffix, read. -/
def scoredMember (rest : Bytes) : Bytes × F64 := (rest.drop 8, decodeScore (rest.take 8))

theorem scoredMember_encodeScore (s : F64) (x : Bytes) : scoredMember (encodeScore s ++ x) = (x, s) := by
  have hlen : (encodeScore s).length = 8 := length_u64Be _
  rw [scoredMember, ← hlen, List.drop_left, List.take_left, decodeScore_encodeScore]

theorem zrangeLoop_all {plen hi : ℕ} {items : List (Bytes × Bytes)} (rank : ℕ)
    (hsplit : ∀ item ∈ items, splitSuffix plen item.1 = .ok (scoredMember (item.1.drop plen)))
    (hhi : rank + items.length ≤ hi + 1) : zrangeLoop plen 0 hi rank items =
      .ok (items.map fun item => scoredMember (item.1.drop plen)) := by
  induction items generalizing rank with
  | nil => rfl
  | cons item items ih =>
    rw [List.length_cons] at hhi
    rw [zrangeLoop, if_neg (Nat.not_lt_zero _), if_neg (by omega), hsplit item List.mem_cons_self,
      Prog.ok_bind, ih (rank + 1) (fun i hi => hsplit i (List.mem_cons_of_mem _ hi)) (by omega)]
    rfl

theorem mem_scan_memberPuts (hk : k.length < 2 ^ 32) (hnew : Unused w.disk k v) (m : Meta)
    (eff : List (Bytes × F64)) (raw value : Bytes) : (raw, value) ∈ prefixScan
        (afterCreation w k (eff.flatMap (memberPuts k v)) m).disk (zscorePrefix k v) ↔
      value = [] ∧ ∃ p ∈ eff, raw = zscoreKey k v p.2 p.1 := by
  have hget : ∀ rest, (afterCreation w k (eff.flatMap (memberPuts k v)) m).disk[zscorePrefix k v ++
      rest]? = if rest ∈ eff.map (fun p => encodeScore p.2 ++ p.1) then some [] else none := by
    intro rest
    have hraw : RecordOf k v (zscorePrefix k v ++ rest) :=
      parseOwnerVersion_eq_some.mpr ⟨hk, .inr (List.prefix_append _ _)⟩
    rw [afterCreation, getElem?_record_putMeta _ _ _ hraw, getElem?_memberPuts_score, hnew _ hraw]
  rw [mem_prefixScan]
  constructor
  · rintro ⟨hraw, rest, rfl⟩
    rw [hget] at hraw
    split at hraw
    · obtain ⟨p, hp, hrest⟩ := List.mem_map.mp ‹_›
      refine ⟨(Option.some.inj hraw).symm, p, hp, ?_⟩
      rw [zscoreKey_eq, hrest]
    · cases hraw
  · rintro ⟨rfl, p, hp, rfl⟩
    rw [zscoreKey_eq, hget, if_pos (List.mem_map.mpr ⟨p, hp, rfl⟩)]
    exact ⟨rfl, List.prefix_append _ _⟩

theorem drop_zscoreKey (s : F64) (x : Bytes) :
    (zscoreKey k v s x).drop (zscorePrefix k v).length = encodeScore s ++ x := by
  rw [zscoreKey_eq, List.drop_left]

theorem splitSuffix_zscoreKey (s : F64) (x : Bytes) :
    splitSuffix (zscorePrefix k v).length (zscoreKey k v s x) = .ok (x, s) := by
  have hlen : ¬ (encodeScore s ++ x).length < 8 := by simp [encodeScore]
  rw [splitSuffix, drop_zscoreKey, splitScoreSuffix, if_neg hlen]
  exact congrArg Prog.ok (scoredMember_encodeScore s x)

/-- The score index of a new sorted set lists exactly its members. -/
theorem scan_memberPuts_perm (hk : k.length < 2 ^ 32) (hnew : Unused w.disk k v) (m : Meta)
    {eff : List (Bytes × F64)} (hnd : (eff.map Prod.fst).Nodup) :
    ((prefixScan (afterCreation w k (eff.flatMap (memberPuts k v)) m).disk (zscorePrefix k v)).map
      fun item => scoredMember (item.1.drop (zscorePrefix k v).length)).Perm eff := by
  have hscan := mem_scan_memberPuts hk hnew m eff
  set items := prefixScan (afterCreation w k (eff.flatMap (memberPuts k v)) m).disk (zscorePrefix k v)
    with hitems
  have hinj : (items.map fun item => scoredMember (item.1.drop (zscorePrefix k v).length)).Nodup := by
    rw [List.Nodup, List.pairwise_map]
    have hkeys := prefixScan_keys_nodup
      (afterCreation w k (eff.flatMap (memberPuts k v)) m).disk (zscorePrefix k v)
    rw [List.Nodup, List.pairwise_map, ← hitems] at hkeys
    refine hkeys.imp_of_mem ?_
    rintro ⟨raw, value⟩ ⟨raw', value'⟩ hi hi' hne he
    obtain ⟨-, p, -, rfl⟩ := (hscan _ _).mp hi
    obtain ⟨-, p', -, rfl⟩ := (hscan _ _).mp hi'
    simp only [drop_zscoreKey, scoredMember_encodeScore] at he
    exact hne (by rw [(Prod.mk.inj he).1, (Prod.mk.inj he).2])
  rw [List.perm_ext_iff_of_nodup hinj (List.Nodup.of_map _ hnd)]
  rintro ⟨x, s⟩
  constructor
  · intro hx
    obtain ⟨⟨raw, value⟩, hi, hs⟩ := List.mem_map.mp hx
    obtain ⟨-, p, hp, rfl⟩ := (hscan _ _).mp hi
    simp only [drop_zscoreKey, scoredMember_encodeScore] at hs
    rwa [← hs]
  · intro hx
    refine List.mem_map.mpr ⟨_, (hscan _ _).mpr ⟨rfl, (x, s), hx, rfl⟩, ?_⟩
    rw [drop_zscoreKey, scoredMember_encodeScore]

theorem zrange_afterCreation (hk : k.length < 2 ^ 32) (hnew : Unused w.disk k v)
    {pairs : List (F64 × Bytes)} (hne : pairs ≠ []) (hlen : pairs.length < 2 ^ 32) {m : Meta}
    (hm : m = (newMeta TYPE_ZSET v).setFieldCount (UInt32.ofNat (effectivePairs pairs).length)) :
    ∃ l, ((zrange k 0 (-1)).run exec (afterCreation w k
        ((effectivePairs pairs).flatMap (memberPuts k v)) m)).1 = .ok l ∧ (l.map Prod.fst).Nodup ∧
      ∀ x s, (x, s) ∈ l ↔ (pairs.map Prod.swap).reverse.lookup x = some s := by
  have hnd := effectivePairs_nodup pairs
  have hperm := scan_memberPuts_perm hk hnew m hnd
  have hmeta := readMeta_afterCreation (w := w) (memberPuts_records (v := v) hk (effectivePairs pairs)) m
  have hle := length_effectivePairs_le pairs
  obtain ⟨n, hn⟩ : ∃ n, (effectivePairs pairs).length = n + 1 :=
    Nat.exists_eq_succ_of_ne_zero fun h => effectivePairs_ne_nil hne (List.length_eq_zero_iff.mp h)
  have hcount : m.fieldCount.toNat = n + 1 := by
    rw [hm, Meta.fieldCount_setFieldCount rfl, UInt32.toNat_ofNat', hn, Nat.mod_eq_of_lt (by omega)]
  have hver : m.version = v := by rw [hm]; rfl
  have hload := run_loadTyped hmeta (by rw [hm]; rfl)
  rw [show m.typeId = TYPE_ZSET by rw [hm]; rfl] at hload
  set s := afterCreation w k ((effectivePairs pairs).flatMap (memberPuts k v)) m
  set items := prefixScan s.disk (zscorePrefix k v) with hitems
  have hsplit : ∀ item ∈ items, splitSuffix (zscorePrefix k v).length item.1 =
      .ok (scoredMember (item.1.drop (zscorePrefix k v).length)) := by
    rintro ⟨raw, value⟩ hi
    obtain ⟨-, p, -, rfl⟩ := (mem_scan_memberPuts hk hnew m _ _ _).mp hi
    rw [splitSuffix_zscoreKey, drop_zscoreKey, scoredMember_encodeScore]
  have hlen : items.length = n + 1 := by rw [← hn, ← hperm.length_eq, List.length_map]
  have hloop : zrangeLoop (zscorePrefix k v).length 0 n 0 items =
      .ok (items.map fun item => scoredMember (item.1.drop (zscorePrefix k v).length)) :=
    zrangeLoop_all 0 hsplit (by omega)
  refine ⟨_, ?_, (hperm.map Prod.fst).nodup_iff.mpr hnd, fun x s => ?_⟩
  · rw [zrange, Prog.run_bind_ok _ hload]
    dsimp only
    rw [hcount, normalizeRange_all (by omega), hver]
    dsimp only
    rw [Prog.perform_bind, Prog.run_call]
    change (Prog.run exec (zrangeLoop (zscorePrefix k v).length 0 n 0 items) s).1 = _
    rw [hloop]
    rfl
  · rw [hperm.mem_iff, mem_effectivePairs]

/-! ## Lists -/

theorem pushIndex_inj {left : Bool} {base : UInt64} {i j : ℕ} (hi : i < 2 ^ 64) (hj : j < 2 ^ 64)
    (h : pushIndex left base i = pushIndex left base j) : i = j := by
  have hof : UInt64.ofNat i = UInt64.ofNat j := by
    unfold pushIndex at h
    cases left with
    | true => simpa using h
    | false => simpa using h
  have := congrArg UInt64.toNat hof
  rwa [UInt64.toNat_ofNat', UInt64.toNat_ofNat', Nat.mod_eq_of_lt hi, Nat.mod_eq_of_lt hj] at this

theorem numbered_keys_nodup (left : Bool) (base : UInt64) {values : List Bytes}
    (hlen : values.length < 2 ^ 63) :
    ((numbered (pushIndex left base) values).map Prod.fst).Nodup := by
  have hmap : (numbered (pushIndex left base) values).map Prod.fst =
      (List.range' 0 values.length).map fun i => listIndexField (pushIndex left base i) := by
    rw [← List.zipIdx_map_snd, List.map_map, numbered, List.map_map]
    rfl
  rw [hmap]
  refine List.Nodup.map_on ?_ List.nodup_range'
  intro i hi j hj h
  rw [List.mem_range'_1] at hi hj
  exact pushIndex_inj (by omega) (by omega) (u64Be_injective h)

theorem lookup_numbered (left : Bool) (base : UInt64) {values : List Bytes}
    (hlen : values.length < 2 ^ 63) {i : ℕ} {value : Bytes} (hi : values[i]? = some value) :
    (numbered (pushIndex left base) values).reverse.lookup (listIndexField (pushIndex left base i)) =
      some value := by
  have hnd := numbered_keys_nodup left base hlen
  rw [lookup_reverse hnd, lookup_eq_some_iff_mem hnd]
  exact List.mem_map.mpr ⟨(value, i), List.mem_zipIdx_iff_getElem?.mpr hi, rfl⟩

theorem run_readElements {w : World} (head : UInt64) (f : ℕ → Bytes) (offsets : List ℕ)
    (h : ∀ o ∈ offsets, w.disk[elementKey k v (head + UInt64.ofNat o)]? = some (f o)) (out : List Bytes) :
    (offsets.foldlM (fun out offset => do
        let value ← readElement k v (head + UInt64.ofNat offset)
        pure (out ++ [value])) out).run exec w = (.ok (out ++ offsets.map f), w) := by
  induction offsets generalizing out with
  | nil => simp
  | cons o offsets ih =>
    have hread : (readElement k v (head + UInt64.ofNat o)).run exec w = (.ok (f o), w) := by
      have hget : exec (.get (elementKey k v (head + UInt64.ofNat o))) w = (some (f o), w) :=
        congrArg (·, w) (h o List.mem_cons_self)
      rw [readElement, Prog.perform_bind, Prog.run_call, hget]
      rfl
    rw [List.foldlM_cons]
    have hstep : (do
        let value ← readElement k v (head + UInt64.ofNat o)
        pure (out ++ [value]) : StoreM (List Bytes)).run exec w = (.ok (out ++ [f o]), w) := by
      rw [Prog.run_bind_ok _ hread]
      rfl
    rw [Prog.run_bind_ok _ hstep, ih (fun o ho => h o (List.mem_cons_of_mem _ ho)), List.append_assoc]
    rfl

theorem map_getD_range (l : List Bytes) : (List.range' 0 l.length).map (l.getD · []) = l := by
  apply List.ext_getElem
  · simp
  · intro i h₁ h₂
    simp [List.getElem?_eq_getElem h₂]

/-- The order `push` leaves its values in. -/
def pushed (values : List Bytes) (left : Bool) : List Bytes :=
  if left then values.reverse else values

theorem lrange_afterCreation (hk : k.length < 2 ^ 32) (hnew : Unused w.disk k v) {values : List Bytes}
    (hne : values ≠ []) (hlen : values.length < 2 ^ 63) (left : Bool) {m : Meta}
    (hm : m = (newMeta TYPE_LIST v).setListBounds
      (if left then LIST_INITIAL_INDEX - UInt64.ofNat values.length else LIST_INITIAL_INDEX)
      (if left then LIST_INITIAL_INDEX else LIST_INITIAL_INDEX + UInt64.ofNat values.length)) :
    ((lrange k 0 (-1)).run exec (afterCreation w k
      (fieldPuts k v (numbered (pushIndex left LIST_INITIAL_INDEX) values)) m)).1 =
      .ok (pushed values left) := by
  set head := if left then LIST_INITIAL_INDEX - UInt64.ofNat values.length else LIST_INITIAL_INDEX
  set tail := if left then LIST_INITIAL_INDEX else LIST_INITIAL_INDEX + UInt64.ofNat values.length
  have hmeta := readMeta_afterCreation (w := w)
    (fieldPuts_records (v := v) hk (numbered (pushIndex left LIST_INITIAL_INDEX) values)) m
  have hget := getElem?_afterCreation_field hk hnew (numbered (pushIndex left LIST_INITIAL_INDEX) values) m
  have hver : m.version = v := by rw [hm]; rfl
  have hload := run_loadTyped hmeta (by rw [hm]; rfl)
  rw [show m.typeId = TYPE_LIST by rw [hm]; rfl] at hload
  have hbounds : m.listBounds = some (head, tail) := by
    rw [hm]
    exact Meta.listBounds_setListBounds rfl head tail
  obtain ⟨n, hn⟩ : ∃ n, values.length = n + 1 :=
    Nat.exists_eq_succ_of_ne_zero fun h => hne (List.length_eq_zero_iff.mp h)
  have hlistLen : listLen head tail = Int64.ofNat (n + 1) := by
    have : tail - head = UInt64.ofNat (n + 1) := by
      simp only [head, tail, hn]
      cases left <;> simp
    rw [listLen, this]
    rfl
  have helem : ∀ o ∈ List.range' 0 (n + 1),
      (afterCreation w k (fieldPuts k v (numbered (pushIndex left LIST_INITIAL_INDEX) values)) m).disk[
        elementKey k v (head + UInt64.ofNat o)]? = some ((pushed values left).getD o []) := by
    intro o ho
    rw [List.mem_range'_1] at ho
    -- The `o`-th element from the head is the `o`-th value, or from the left the last but `o`.
    obtain ⟨i, hi, hindex, hvalue⟩ : ∃ i < values.length,
        head + UInt64.ofNat o = pushIndex left LIST_INITIAL_INDEX i ∧
          (pushed values left).getD o [] = values.getD i [] := by
      cases left with
      | true =>
        refine ⟨n - o, by omega, ?_, ?_⟩
        · have hsum : UInt64.ofNat values.length = UInt64.ofNat (n - o) + 1 + UInt64.ofNat o := by
            rw [show values.length = n - o + 1 + o by omega, UInt64.ofNat_add, UInt64.ofNat_add]
            rfl
          simp only [head, if_true, pushIndex, hsum]
          grind
        · have ho' : o < values.length := by omega
          simp [pushed, List.getElem?_reverse ho', show values.length - 1 - o = n - o by omega]
      | false => exact ⟨o, by omega, rfl, rfl⟩
    rw [elementKey, hget, hindex, hvalue]
    exact lookup_numbered left _ hlen (by simp [List.getElem?_eq_getElem hi])
  rw [lrange, Prog.run_bind_ok _ hload]
  dsimp only
  rw [hbounds]
  dsimp only
  rw [hlistLen, normalizeRange_all (by omega), hver]
  dsimp only
  rw [Nat.sub_zero, run_readElements head _ _ helem, List.nil_append]
  have hlen' : n + 1 = (pushed values left).length := by
    rw [← hn, pushed]
    split <;> simp
  rw [hlen', map_getD_range]

end Readback

end GameStore
