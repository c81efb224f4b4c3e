import GameStore.Sets

/-!
# Removing fields of a hash

`hdel` looks every listed field up in the engine, also one it has already met, and counts
down for each. So it does what it should exactly if no field of the hash is listed twice.
-/

namespace GameStore

open Lib Std

section HashRemoval

variable {k : Bytes} {w : World} {m : Meta}

theorem run_hdel (hk : k.length < 2 ^ 32) (hlive : w.liveMeta k = some m) (ht : m.typeId = TYPE_HASH)
    (fields : List Bytes) {xs : List Bytes} (hxs : found w.disk k m.version fields = xs) :
    ∃ w', w'.toStore = w.toStore ∧ (hdel k fields).run exec w = (.ok xs.length, if xs = [] then w'
      else if m.fieldCount.toNat ≤ xs.length then
        { w' with
          disk := (applyBatch w.disk (xs.map fun x => .delete (subkey k m.version x))).erase (metaKey k)
          versions := w.versions.erase k }
      else { w' with disk := applyBatch w.disk ((xs.map fun x => .delete (subkey k m.version x)) ++
        [.put (metaKey k) (m.setFieldCount (UInt32.ofNat (m.fieldCount.toNat - xs.length))).encode]) }) := by
  obtain ⟨w', hload, hst, -⟩ := run_loadTyped_live hlive
  have hd : w'.disk = w.disk := by rw [hst]
  have hloop := run_hdelSteps (k := k) (v := m.version) fields ⟨m.fieldCount, 0, []⟩ w'
  rw [ht] at hload
  rw [hd, hxs] at hloop
  refine ⟨w', hst, ?_⟩
  rw [hdel, Prog.run_bind_ok _ hload]
  dsimp only
  rw [Prog.run_bind_ok _ hloop, run_finishDeletes hk hst]

/-! ## What is found -/

/-- Every field of the hash is listed at most once. -/
def ListedOnce (fields : List Bytes) (S : Finset Bytes) : Prop := ∀ f ∈ S, fields.count f ≤ 1

theorem toFinset_found (d : Disk) (v : UInt64) (fields : List Bytes) :
    (found d k v fields).toFinset = fields.toFinset ∩ members d k v := by
  ext f
  simp [found, mem_members]

theorem found_nodup_iff (d : Disk) (v : UInt64) (fields : List Bytes) :
    (found d k v fields).Nodup ↔ ListedOnce fields (members d k v) := by
  rw [List.nodup_iff_count_le_one]
  constructor
  · intro h f hf
    rw [← List.count_filter (p := fun f => d[subkey k v f]?.isSome) (a := f) (mem_members.mp hf)]
    exact h f
  · intro h f
    by_cases hf : f ∈ members d k v
    · rw [found, List.count_filter (a := f) (mem_members.mp hf)]
      exact h f hf
    · rw [List.count_eq_zero.mpr]
      · omega
      · exact fun hmem => hf (mem_members.mpr (List.mem_filter.mp hmem).2)

theorem length_found_eq_iff (d : Disk) (v : UInt64) (fields : List Bytes) :
    (found d k v fields).length = (fields.toFinset ∩ members d k v).card ↔
      ListedOnce fields (members d k v) := by
  rw [← found_nodup_iff, ← toFinset_found]
  constructor
  · intro h
    exact Multiset.toFinset_card_eq_card_iff_nodup.mp h.symm
  · intro h
    exact (List.toFinset_card_of_nodup h).symm

/-! ## What is left -/

/-- The pairs `hgetall` reads off the disk. -/
def pairsOf (d : Disk) (k : Bytes) (v : UInt64) : List (Bytes × Bytes) :=
  (prefixScan d (subkeyPrefix k v)).map fun item => (item.1.drop (subkeyPrefix k v).length, item.2)

theorem pairsOf_kept {d d' : Disk} {v : UInt64} {fields : List Bytes}
    (h : ∀ f, d'[subkey k v f]? = if f ∈ fields then none else d[subkey k v f]?) :
    pairsOf d' k v = (pairsOf d k v).filter fun p => p.1 ∉ fields := by
  have hscan : prefixScan d' (subkeyPrefix k v) = (prefixScan d (subkeyPrefix k v)).filter
      fun r => r.1.drop (subkeyPrefix k v).length ∉ fields := by
    apply prefixScan_kept (P := fun raw => raw.drop (subkeyPrefix k v).length ∉ fields)
    rintro raw ⟨f, rfl⟩
    rw [List.drop_left]
    refine (h f).trans ?_
    by_cases hf : f ∈ fields
    · simp [hf]
    · simp [hf, subkey]
  rw [pairsOf, hscan, pairsOf, List.filter_map]
  rfl

/-- The key is stored with the fields of `S` that are not listed, or gone if there are none. -/
inductive LeavesFields (d d' : Disk) (k : Bytes) (m : Meta) (fields : List Bytes) (S : Finset Bytes) : Prop
  | gone (hnone : S \ fields.toFinset = ∅) (h : d'[metaKey k]? = none) : LeavesFields d d' k m fields S
  | left {m' : Meta} (hsome : (S \ fields.toFinset).Nonempty) (hm : readMeta d' k = some m')
      (ht : m'.typeId = TYPE_HASH) (he : m'.expireMs = m.expireMs) (hv : m'.version = m.version)
      (hc : m'.fieldCount.toNat = (S \ fields.toFinset).card)
      (hd : ∀ f, d'[subkey k m.version f]? = if f ∈ fields then none else d[subkey k m.version f]?) :
      LeavesFields d d' k m fields S

theorem hdel_leaves (hk : k.length < 2 ^ 32) (hlive : w.liveMeta k = some m) (ht : m.typeId = TYPE_HASH)
    {S : Finset Bytes} (hS : members w.disk k m.version = S) (hcount : m.fieldCount.toNat = S.card)
    (hne : S.Nonempty) {fields : List Bytes} (honce : ListedOnce fields S) :
    LeavesFields w.disk ((hdel k fields).run exec w).2.disk k m fields S := by
  obtain ⟨w', hst, hrun⟩ := run_hdel hk hlive ht fields rfl
  have hlen := (length_found_eq_iff w.disk m.version fields).mpr (hS.symm ▸ honce)
  have hset := toFinset_found (k := k) w.disk m.version fields
  rw [hS] at hlen hset
  set xs := found w.disk k m.version fields
  have hcard : (S \ fields.toFinset).card = S.card - xs.length := by
    rw [hlen, Finset.card_sdiff]
  -- What is listed and has no record is missing before and after.
  have hrest : ∀ f, (if f ∈ xs then none else w.disk[subkey k m.version f]?) =
      if f ∈ fields then none else w.disk[subkey k m.version f]? := by
    intro f
    by_cases hf : f ∈ fields
    · by_cases hrec : f ∈ S
      · rw [if_pos hf, if_pos]
        exact List.mem_toFinset.mp (hset ▸ Finset.mem_inter.mpr ⟨List.mem_toFinset.mpr hf, hrec⟩)
      · rw [← hS, mem_members, Bool.not_eq_true, Option.isSome_eq_false_iff, Option.isNone_iff_eq_none] at hrec
        rw [hrec, ite_self, ite_self]
    · have hx : f ∉ xs := fun hx => hf (List.mem_filter.mp hx).1
      rw [if_neg hf, if_neg hx]
  rw [hrun]
  by_cases hnil : xs = []
  · have hlisted : S \ fields.toFinset = S := by
      refine Finset.eq_of_subset_of_card_le Finset.sdiff_subset ?_
      rw [hcard, hnil]
      exact le_rfl
    rw [if_pos hnil, hst]
    refine .left (hlisted.symm ▸ hne) (readMeta_of_liveMeta hlive) ht rfl rfl (hlisted.symm ▸ hcount) fun f => ?_
    rw [← hrest f, hnil]
    rfl
  · rw [if_neg hnil]
    by_cases hall : m.fieldCount.toNat ≤ xs.length
    · rw [if_pos hall]
      refine .gone ?_ ((getElem?_erase_bytes _ _ _).trans (if_pos rfl))
      rw [← Finset.card_eq_zero, hcard]
      omega
    · rw [if_neg hall]
      have hr : Records k m.version (xs.map fun x => .delete (subkey k m.version x)) := by
        intro op hop
        obtain ⟨x, -, rfl⟩ := List.mem_map.mp hop
        exact parseOwnerVersion_subkey hk _ x
      have hlt := m.fieldCount.toNat_lt
      refine .left ?_ ((readMeta_putMeta hr w.disk _ k).trans (if_pos rfl)) ht rfl rfl ?_ fun f => ?_
      · rw [← Finset.card_pos, hcard]
        omega
      · rw [Meta.fieldCount_setFieldCount (by simp [Meta.counted, ht]), UInt32.toNat_ofNat',
          Nat.mod_eq_of_lt (by omega), hcount, hcard]
      · rw [← hrest f, ← getElem?_deleteFields]
        exact getElem?_record_putMeta w.disk _ _ (parseOwnerVersion_subkey hk _ f)

/-! ## What a reader sees -/

theorem run_hgetall_live (hlive : w.liveMeta k = some m) (ht : m.typeId = TYPE_HASH) :
    ((hgetall k).run exec w).1 = .ok (pairsOf w.disk k m.version) := by
  obtain ⟨w', hload, hst, -⟩ := run_loadTyped_live hlive
  rw [ht] at hload
  have hd : w'.disk = w.disk := by rw [hst]
  rw [hgetall, Prog.run_bind_ok _ hload, ← hd]
  rfl

/-- `hdel` replies with the number of distinct listed fields that were there; and at any
time before the deadline the rest of the fields are there, as many as `hlen` says, and the
key exists if there is one. -/
structure RemovesExactly (w : World) (key : Key) (m : Meta) (fields : List Bytes) : Prop where
  reply : ((Op.keyed key (.hdel fields)).run w).1 =
    .ok (.int (fields.toFinset ∩ members w.disk key.1 m.version).card)
  hgetall : ∀ clock : Clock, (m.expireMs = 0 ∨ ¬ m.expireMs ≤ clock.ms.head) →
    ∃ pairs, ((Op.keyed key .hgetall).run w).1 = .ok (.pairs pairs) ∧
      ((Op.keyed key .hgetall).run (((Op.keyed key (.hdel fields)).run w).2.at clock)).1 =
        .ok (.pairs (pairs.filter fun p => p.1 ∉ fields))
  hlen : ∀ clock : Clock, (m.expireMs = 0 ∨ ¬ m.expireMs ≤ clock.ms.head) →
    ((Op.keyed key .hlen).run (((Op.keyed key (.hdel fields)).run w).2.at clock)).1 =
      .ok (.int (members w.disk key.1 m.version \ fields.toFinset).card)
  exists_iff : ∀ clock : Clock, (m.expireMs = 0 ∨ ¬ m.expireMs ≤ clock.ms.head) →
    ((Op.keyed key .exists).run (((Op.keyed key (.hdel fields)).run w).2.at clock)).1 =
      .ok (.bool (decide (members w.disk key.1 m.version \ fields.toFinset).Nonempty))

theorem liveMeta_at {s : World} {m' : Meta} (hm : readMeta s.disk k = some m') (he : m'.expireMs = m.expireMs)
    {clock : Clock} (hclock : m.expireMs = 0 ∨ ¬ m.expireMs ≤ clock.ms.head) :
    (s.at clock).liveMeta k = some m' := by
  refine Option.filter_eq_some_iff.mpr ⟨hm, ?_⟩
  rw [he]
  change (decide (m.expireMs = 0) || !decide (m.expireMs ≤ clock.ms.head)) = true
  simpa using hclock

theorem LeavesFields.removesExactly {key : Key} (hlive : w.liveMeta key.1 = some m) (ht : m.typeId = TYPE_HASH)
    {fields : List Bytes} (honce : ListedOnce fields (members w.disk key.1 m.version))
    (h : LeavesFields w.disk ((hdel key.1 fields).run exec w).2.disk key.1 m fields
      (members w.disk key.1 m.version)) : RemovesExactly w key m fields := by
  obtain ⟨w', -, hrun⟩ := run_hdel key.2 hlive ht fields rfl
  obtain ⟨hreply, hstate⟩ := run_keyed key (.hdel fields) rfl (congrArg Prod.fst hrun)
  have hbefore := run_keyed key .hgetall rfl (run_hgetall_live hlive ht)
  refine ⟨?_, fun clock hclock => ⟨_, hbefore.1, ?_⟩, fun clock hclock => ?_, fun clock hclock => ?_⟩
  · rw [hreply, (length_found_eq_iff w.disk m.version fields).mpr honce]
  all_goals rw [hstate]
  · cases h with
    | gone hnone hgone =>
      -- Every field is listed.
      have habs : (((hdel key.1 fields).run exec w).2.at clock).Absent key.1 := .inl hgone
      rw [run_read_absent key (by rfl) habs, List.filter_eq_nil_iff.mpr]
      · rfl
      · rintro ⟨f, value⟩ hp
        have hf : f ∈ members w.disk key.1 m.version := by
          rw [mem_members, (mem_hgetall_scan.mp hp)]
          rfl
        rw [Finset.sdiff_eq_empty_iff_subset] at hnone
        simpa using hnone hf
    | left hsome hm ht' he hv hc hd =>
      have hlive' := liveMeta_at hm he hclock
      rw [(run_keyed key .hgetall rfl (run_hgetall_live hlive' ht')).1, hv]
      exact congrArg (fun l => Except.ok (Reply.pairs l)) (pairsOf_kept hd)
  · cases h with
    | gone hnone hgone =>
      have habs : (((hdel key.1 fields).run exec w).2.at clock).Absent key.1 := .inl hgone
      rw [run_read_absent key (by rfl) habs, hnone]
      rfl
    | left hsome hm ht' he hv hc hd =>
      have hcount := run_storedCount_live (liveMeta_at hm he hclock)
      rw [ht', hc] at hcount
      exact (run_keyed key .hlen rfl hcount).1
  · cases h with
    | gone hnone hgone =>
      have habs : (((hdel key.1 fields).run exec w).2.at clock).Absent key.1 := .inl hgone
      rw [run_read_absent key (by rfl) habs, hnone]
      rfl
    | left hsome hm ht' he hv hc hd =>
      rw [decide_eq_true hsome]
      exact run_exists_live (liveMeta_at hm he hclock)

/-- For every store and every live hash whose stored count is its number of fields: `hdel`
removes exactly what it is given, if and only if the hash has a field and no field of it is
listed twice. -/
theorem hdel_removes_exactly_iff (w : World) (key : Key) (m : Meta) (hlive : w.liveMeta key.1 = some m)
    (ht : m.typeId = TYPE_HASH) (hcount : m.fieldCount.toNat = (members w.disk key.1 m.version).card)
    (fields : List Bytes) :
    RemovesExactly w key m fields ↔
      (members w.disk key.1 m.version).Nonempty ∧ ∀ f ∈ members w.disk key.1 m.version, fields.count f ≤ 1 := by
  constructor
  · intro h
    obtain ⟨w', hst, hrun⟩ := run_hdel key.2 hlive ht fields rfl
    obtain ⟨hreply, hstate⟩ := run_keyed key (.hdel fields) rfl (congrArg Prod.fst hrun)
    constructor
    · by_contra hempty
      rw [Finset.not_nonempty_iff_eq_empty] at hempty
      have hnil : found w.disk key.1 m.version fields = [] := by
        rw [← List.toFinset_eq_empty_iff, toFinset_found, hempty, Finset.inter_empty]
      have hclock : m.expireMs = 0 ∨ ¬ m.expireMs ≤ w.toClock.ms.head := by
        simpa using (Option.filter_eq_some_iff.mp hlive).2
      have hexists := h.exists_iff w.toClock hclock
      rw [hstate, hrun, if_pos hnil, hempty] at hexists
      have hthere : (w'.at w.toClock).liveMeta key.1 = some m :=
        liveMeta_at (by rw [hst]; exact readMeta_of_liveMeta hlive) rfl hclock
      have htrue : ((Op.keyed key .exists).run (w'.at w.toClock)).1 = .ok (.bool true) :=
        run_exists_live hthere
      rw [htrue] at hexists
      simp at hexists
    · have heq := hreply.symm.trans h.reply
      simp only [Except.ok.injEq, Reply.int.injEq, Nat.cast_inj] at heq
      exact (length_found_eq_iff w.disk m.version fields).mp heq
  · rintro ⟨hne, honce⟩
    exact (hdel_leaves key.2 hlive ht rfl hcount hne honce).removesExactly hlive ht honce

end HashRemoval

/-- The hash at `k` has the fields `f` and `g`. -/
def twoFields : World :=
  (World.opened ∅ (stillClock 7 5)).after [.run (.keyed Key.k (.hset [([102], [49]), ([103], [50])]))]

/-- What `hset` left at `k`. -/
def twoFieldsMeta : Meta := ⟨TYPE_HASH, 5, 0, [0, 0, 0, 2]⟩

theorem hdel_removes_exactly_listedOnce :
    twoFields.liveMeta Key.k.1 = some twoFieldsMeta ∧ RemovesExactly twoFields Key.k twoFieldsMeta [[102], [120]] := by
  have hlive : twoFields.liveMeta Key.k.1 = some twoFieldsMeta := by decide +kernel
  have hmembers : members twoFields.disk Key.k.1 twoFieldsMeta.version = {[102], [103]} := by decide +kernel
  have hcount : twoFieldsMeta.fieldCount.toNat =
      (members twoFields.disk Key.k.1 twoFieldsMeta.version).card := by rw [hmembers]; decide
  refine ⟨hlive, (hdel_removes_exactly_iff twoFields Key.k twoFieldsMeta hlive rfl hcount _).mpr ?_⟩
  rw [hmembers]
  exact ⟨by decide, by decide⟩

/-- Naming `f` twice takes `g` along. -/
theorem hdel_of_repeated_field_drops_hash :
    twoFields.liveMeta Key.k.1 = some twoFieldsMeta ∧
      twoFieldsMeta.fieldCount.toNat = (members twoFields.disk Key.k.1 twoFieldsMeta.version).card ∧
      ((Op.keyed Key.k (.hdel [[102], [102]])).run twoFields).1 = .ok (.int 2) ∧
      ((Op.keyed Key.k .hgetall).run ((Op.keyed Key.k (.hdel [[102], [102]])).run twoFields).2).1 =
        .ok (.pairs []) ∧
      ¬ RemovesExactly twoFields Key.k twoFieldsMeta [[102], [102]] := by
  have hmembers : members twoFields.disk Key.k.1 twoFieldsMeta.version = {[102], [103]} := by decide +kernel
  have hreply : ((Op.keyed Key.k (.hdel [[102], [102]])).run twoFields).1 = .ok (.int 2) := by decide +kernel
  refine ⟨by decide +kernel, by rw [hmembers]; decide, hreply, by decide +kernel, fun h => ?_⟩
  have hclaim := h.reply
  rw [hreply, hmembers] at hclaim
  exact absurd hclaim (by decide)

end GameStore
