import GameStore.Sets
import GameStore.Ranges

/-!
# Sorted sets

A member has two records, one that says its score and one in the score index. Over every
sequential run the two families stay in step, and the operations are those of a finite map
from members to scores.
-/

namespace GameStore

open Lib Std

section Dual

variable {k : Bytes} {v : UInt64} {d : Disk}

theorem encodeScore_injective : Function.Injective encodeScore := by
  intro s s' h
  rw [← decodeScore_encodeScore s, h, decodeScore_encodeScore]

@[simp] theorem length_encodeScore (s : F64) : (encodeScore s).length = 8 := length_u64Be _

theorem zscoreKey_inj {s s' : F64} {x x' : Bytes} : zscoreKey k v s x = zscoreKey k v s' x' ↔ s = s' ∧ x = x' := by
  rw [zscoreKey_eq, zscoreKey_eq, List.append_right_inj]
  constructor
  · intro h
    obtain ⟨hs, hx⟩ := List.append_inj h (by simp)
    exact ⟨encodeScore_injective hs, hx⟩
  · rintro ⟨rfl, rfl⟩
    rfl

theorem subkey_ne_zscoreKey (x : Bytes) (s : F64) (y : Bytes) : subkey k v x ≠ zscoreKey k v s y := by
  rw [zscoreKey_eq]
  exact subkey_ne_zscore x _

/-! ## The two families -/

/-- Under the version, both families hold the members with their scores. -/
structure DualRecords (d : Disk) (k : Bytes) (v : UInt64) (score : Bytes → Option F64) : Prop where
  member : ∀ x, d[subkey k v x]? = (score x).map encodeScore
  index : ∀ s x, d[zscoreKey k v s x]? = if score x = some s then some [] else none
  suffixes : ∀ rest, d[zscorePrefix k v ++ rest]?.isSome → ∃ s x, rest = encodeScore s ++ x

/-- Exactly one index record to a member record. -/
theorem DualRecords.bijection {score : Bytes → Option F64} (h : DualRecords d k v score) (x : Bytes) (s : F64) :
    d[subkey k v x]? = some (encodeScore s) ↔ ∀ s', d[zscoreKey k v s' x]?.isSome ↔ s' = s := by
  rw [h.member]
  constructor
  · intro hx s'
    obtain ⟨s₀, hs₀, he⟩ := Option.map_eq_some_iff.mp hx
    obtain rfl := encodeScore_injective he
    rw [h.index, hs₀]
    by_cases hs : s₀ = s'
    · simp [hs]
    · simp [hs, Ne.symm hs]
  · intro hall
    have hsome := (hall s).mpr rfl
    rw [h.index] at hsome
    split at hsome
    · rename_i hx
      rw [hx]
      rfl
    · cases hsome

theorem dualRecords_congr {d' : Disk} {score : Bytes → Option F64} (hk : k.length < 2 ^ 32)
    (h : ∀ raw, RecordOf k v raw → d'[raw]? = d[raw]?) (hd : DualRecords d k v score) :
    DualRecords d' k v score where
  member x := (h _ (parseOwnerVersion_subkey hk v x)).trans (hd.member x)
  index s x := (h _ (parseOwnerVersion_zscoreKey hk v s x)).trans (hd.index s x)
  suffixes rest hsome := by
    have hraw : RecordOf k v (zscorePrefix k v ++ rest) :=
      parseOwnerVersion_eq_some.mpr ⟨hk, .inr (List.prefix_append _ _)⟩
    rw [h _ hraw] at hsome
    exact hd.suffixes rest hsome

theorem dualRecords_unused (hk : k.length < 2 ^ 32) (h : Unused d k v) : DualRecords d k v fun _ => none where
  member x := h _ (parseOwnerVersion_subkey hk v x)
  index s x := (h _ (parseOwnerVersion_zscoreKey hk v s x)).trans (if_neg nofun).symm
  suffixes rest hsome := by
    rw [h _ (parseOwnerVersion_eq_some.mpr ⟨hk, .inr (List.prefix_append _ _)⟩)] at hsome
    cases hsome

theorem suffixes_apply (h : ∀ rest, d[zscorePrefix k v ++ rest]?.isSome → ∃ s x, rest = encodeScore s ++ x)
    (op : WriteOp) (hop : op.value = none ∨ (∃ x, op.key = subkey k v x) ∨ ∃ s x, op.key = zscoreKey k v s x)
    (rest : Bytes) (hsome : (op.apply d)[zscorePrefix k v ++ rest]?.isSome) : ∃ s x, rest = encodeScore s ++ x := by
  rw [getElem?_apply] at hsome
  split at hsome
  · rename_i hkey
    rcases hop with hnone | ⟨x, hx⟩ | ⟨s, x, hx⟩
    · rw [hnone] at hsome
      cases hsome
    · exact absurd (hx.symm.trans hkey) (subkey_ne_zscore x rest)
    · rw [hx, zscoreKey_eq, List.append_right_inj] at hkey
      exact ⟨s, x, hkey.symm⟩
  · exact h rest hsome

/-! ## One member -/

/-- The deletion of an index record. -/
def dropIndex (k : Bytes) (v : UInt64) (old : Option F64) (x : Bytes) : WriteBatch :=
  old.toList.map fun o => .delete (zscoreKey k v o x)

/-- What `zadd` writes for a member whose score was `old`. -/
def replaces (k : Bytes) (v : UInt64) (old : Option F64) (x : Bytes) (s : F64) : WriteBatch :=
  dropIndex k v old x ++ memberPuts k v (x, s)

theorem getElem?_dropIndex_member (old : Option F64) (x y : Bytes) :
    (applyBatch d (dropIndex k v old x))[subkey k v y]? = d[subkey k v y]? := by
  cases old with
  | none => rfl
  | some o => exact (getElem?_applyBatch_single _ _ _).trans (if_neg (subkey_ne_zscoreKey y o x).symm)

theorem getElem?_dropIndex {score : Bytes → Option F64}
    (h : ∀ s x, d[zscoreKey k v s x]? = if score x = some s then some [] else none) (x : Bytes) (s : F64)
    (y : Bytes) : (applyBatch d (dropIndex k v (score x) x))[zscoreKey k v s y]? =
      if y ≠ x ∧ score y = some s then some [] else none := by
  cases hx : score x with
  | none =>
    refine (h s y).trans ?_
    by_cases hy : y = x
    · simp [hy, hx]
    · simp [hy]
  | some o =>
    refine (getElem?_applyBatch_single _ _ _).trans ?_
    simp only [WriteOp.key, WriteOp.value, zscoreKey_inj, h]
    by_cases hy : y = x
    · by_cases ho : o = s
      · simp [hy, ho]
      · simp [hy, ho, hx]
    · simp [hy, Ne.symm hy]

theorem suffixes_dropIndex (h : ∀ rest, d[zscorePrefix k v ++ rest]?.isSome → ∃ s x, rest = encodeScore s ++ x)
    (old : Option F64) (x rest : Bytes)
    (hsome : (applyBatch d (dropIndex k v old x))[zscorePrefix k v ++ rest]?.isSome) :
    ∃ s x, rest = encodeScore s ++ x := by
  cases old with
  | none => exact h rest hsome
  | some o => exact suffixes_apply h (.delete (zscoreKey k v o x)) (.inl rfl) rest hsome

theorem DualRecords.replace {score : Bytes → Option F64} (h : DualRecords d k v score) (x : Bytes) (s : F64) :
    DualRecords (applyBatch d (replaces k v (score x) x s)) k v (Function.update score x (some s)) := by
  have hbatch : applyBatch d (replaces k v (score x) x s) = (WriteOp.put (zscoreKey k v s x) []).apply
      ((WriteOp.put (subkey k v x) (encodeScore s)).apply (applyBatch d (dropIndex k v (score x) x))) := by
    rw [replaces, applyBatch_append]
    rfl
  rw [hbatch]
  refine ⟨fun y => ?_, fun s' y => ?_, ?_⟩
  · rw [getElem?_apply, getElem?_apply, getElem?_dropIndex_member, h.member]
    simp only [WriteOp.key, WriteOp.value, subkey_inj, if_neg (subkey_ne_zscoreKey y s x).symm]
    by_cases hy : x = y
    · simp [hy]
    · simp [hy, Ne.symm hy]
  · rw [getElem?_apply, getElem?_apply, getElem?_dropIndex h.index]
    simp only [WriteOp.key, WriteOp.value, zscoreKey_inj, subkey_ne_zscoreKey x s' y, if_false]
    by_cases hy : y = x
    · by_cases hs : s = s'
      · simp [hy, hs]
      · simp [hy, hs]
    · simp [hy, Ne.symm hy]
  · exact suffixes_apply (suffixes_apply (suffixes_dropIndex h.suffixes _ x) _ (.inr (.inl ⟨x, rfl⟩))) _
      (.inr (.inr ⟨s, x, rfl⟩))

theorem DualRecords.remove {score : Bytes → Option F64} (h : DualRecords d k v score) (x : Bytes) :
    DualRecords (applyBatch d (.delete (subkey k v x) :: dropIndex k v (score x) x)) k v
      (Function.update score x none) := by
  have hbatch : applyBatch d (.delete (subkey k v x) :: dropIndex k v (score x) x) =
      applyBatch ((WriteOp.delete (subkey k v x)).apply d) (dropIndex k v (score x) x) := rfl
  have hindex : ∀ s y, ((WriteOp.delete (subkey k v x)).apply d)[zscoreKey k v s y]? =
      if score y = some s then some [] else none := fun s y =>
    (getElem?_apply _ _ _).trans ((if_neg (subkey_ne_zscoreKey x s y)).trans (h.index s y))
  rw [hbatch]
  refine ⟨fun y => ?_, fun s y => ?_, suffixes_dropIndex (suffixes_apply h.suffixes _ (.inl rfl)) _ x⟩
  · rw [getElem?_dropIndex_member, getElem?_apply, h.member]
    simp only [WriteOp.key, WriteOp.value, subkey_inj]
    by_cases hy : x = y
    · simp [hy]
    · simp [hy, Ne.symm hy]
  · rw [getElem?_dropIndex hindex]
    by_cases hy : y = x
    · simp [hy]
    · simp [hy]

/-! ## The loops -/

/-- The score a member has after `zadd` lists it with `s`: a numerically equal one stays. -/
def newScore (old : Option F64) (s : F64) : F64 := if old.any (·.eq s) then old.getD s else s

/-- What `zadd` writes for a pair, when the scores are as given. -/
def upserts (k : Bytes) (v : UInt64) (score : Bytes → Option F64) (p : Bytes × F64) : WriteBatch :=
  if (score p.1).any (·.eq p.2) then [] else replaces k v (score p.1) p.1 p.2

/-- The scores after one pair. -/
def upsert (score : Bytes → Option F64) (p : Bytes × F64) : Bytes → Option F64 :=
  Function.update score p.1 (some (newScore (score p.1) p.2))

/-- How many of the pairs are of new members. -/
def newcomers (score : Bytes → Option F64) (pairs : List (Bytes × F64)) : ℕ :=
  (pairs.filter fun p => (score p.1).isNone).length

theorem DualRecords.upsert {score : Bytes → Option F64} (h : DualRecords d k v score) (p : Bytes × F64) :
    DualRecords (applyBatch d (upserts k v score p)) k v (upsert score p) := by
  rw [upserts, GameStore.upsert, newScore]
  by_cases heq : (score p.1).any (·.eq p.2)
  · rw [if_pos heq, if_pos heq]
    cases ho : score p.1 with
    | none =>
      rw [ho] at heq
      cases heq
    | some o =>
      rw [Option.getD_some, ← ho, Function.update_eq_self]
      exact h
  · rw [if_neg heq, if_neg heq]
    exact h.replace p.1 p.2

/-- The pairs name different members, so that each finds the scores from before. -/
theorem DualRecords.upsertAll {score : Bytes → Option F64} (h : DualRecords d k v score)
    {pairs : List (Bytes × F64)} (hnd : (pairs.map Prod.fst).Nodup) :
    DualRecords (applyBatch d (pairs.flatMap (upserts k v score))) k v (pairs.foldl GameStore.upsert score) ∧
      ∀ x ∉ pairs.map Prod.fst, pairs.foldl GameStore.upsert score x = score x := by
  induction pairs using List.reverseRecOn with
  | nil => exact ⟨h, fun _ _ => rfl⟩
  | append_singleton pairs p ih =>
    rw [List.map_append, List.map_singleton, List.nodup_append] at hnd
    obtain ⟨hprev, hother⟩ := ih hnd.1
    have hp : p.1 ∉ pairs.map Prod.fst := fun hmem => hnd.2.2 _ hmem _ (by simp) rfl
    have hsame : upserts k v score p = upserts k v (pairs.foldl GameStore.upsert score) p := by
      rw [upserts, upserts, hother p.1 hp]
    rw [List.flatMap_append, applyBatch_append, List.flatMap_singleton, hsame, List.foldl_append,
      List.foldl_cons, List.foldl_nil]
    refine ⟨hprev.upsert p, fun x hx => ?_⟩
    rw [List.map_append, List.map_singleton, List.mem_append, not_or, List.mem_singleton] at hx
    rw [GameStore.upsert, Function.update_of_ne hx.2, hother x hx.1]

/-- The tally after the pairs of `zadd`. -/
def upsertTally (k : Bytes) (v : UInt64) (score : Bytes → Option F64) (t : Tally) (pairs : List (Bytes × F64)) :
    Tally :=
  ⟨t.count + UInt32.ofNat (newcomers score pairs), t.changed + newcomers score pairs,
    t.batch ++ pairs.flatMap (upserts k v score)⟩

theorem upsertTally_cons (score : Bytes → Option F64) (t : Tally) (p : Bytes × F64) (pairs : List (Bytes × F64)) :
    upsertTally k v score t (p :: pairs) = upsertTally k v score (upsertTally k v score t [p]) pairs := by
  have hcount : newcomers score (p :: pairs) = newcomers score [p] + newcomers score pairs := by
    rw [newcomers, newcomers, newcomers, ← List.length_append, ← List.filter_append]
    rfl
  rw [upsertTally, upsertTally, upsertTally, hcount, UInt32.ofNat_add, ← UInt32.add_assoc, Nat.cast_add,
    ← Int.add_assoc, List.flatMap_cons, List.flatMap_singleton, List.append_assoc]

theorem run_zaddStep {score : Bytes → Option F64} {w : World} (h : DualRecords w.disk k v score) (t : Tally)
    (p : Bytes × F64) : (zaddStep k v t p).run exec w = (.ok (upsertTally k v score t [p]), w) := by
  have hget : exec (.get (subkey k v p.1)) w = ((score p.1).map encodeScore, w) :=
    congrArg (·, w) (h.member p.1)
  have htally : upsertTally k v score t [p] = ⟨t.count + UInt32.ofNat (newcomers score [p]),
      t.changed + newcomers score [p], t.batch ++ upserts k v score p⟩ := by
    rw [upsertTally, List.flatMap_singleton]
  rw [zaddStep, Prog.perform_bind, Prog.run_call, hget, htally]
  cases ho : score p.1 with
  | none =>
    have hnew : newcomers score [p] = 1 := by simp [newcomers, ho]
    have hputs : upserts k v score p = memberPuts k v p := by simp [upserts, replaces, dropIndex, ho]
    rw [hnew, hputs]
    rfl
  | some o =>
    have hnew : newcomers score [p] = 0 := by simp [newcomers, ho]
    have hcount : t.count + UInt32.ofNat 0 = t.count := UInt32.add_zero _
    have hlen : (encodeScore o).length = 8 := length_encodeScore o
    dsimp only [Option.map_some]
    rw [hnew, hcount, decodeStoredScore, if_pos hlen, decodeScore_encodeScore]
    by_cases heq : o.eq p.2
    · have hputs : upserts k v score p = [] := by simp [upserts, ho, heq]
      rw [hputs, List.append_nil]
      change ((if o.eq p.2 then pure t else _ : StoreM Tally).run exec w) = _
      rw [if_pos heq]
      simp
    · have hputs : upserts k v score p = .delete (zscoreKey k v o p.1) :: memberPuts k v p := by
        simp [upserts, replaces, dropIndex, ho, heq]
      rw [hputs]
      change ((if o.eq p.2 then pure t else _ : StoreM Tally).run exec w) = _
      rw [if_neg heq]
      simp [Tally.note, memberPuts]

theorem run_zaddSteps {score : Bytes → Option F64} {w : World} (h : DualRecords w.disk k v score)
    (pairs : List (Bytes × F64)) (t : Tally) :
    (pairs.foldlM (zaddStep k v) t).run exec w = (.ok (upsertTally k v score t pairs), w) := by
  induction pairs generalizing t with
  | nil =>
    simp [upsertTally, newcomers]
  | cons p pairs ih =>
    rw [List.foldlM_cons, Prog.run_bind_ok _ (run_zaddStep h t p), ih, ← upsertTally_cons]

theorem run_zadd {score : Bytes → Option F64} {w w' : World} {m : Meta} (pairs : List (F64 × Bytes))
    (hload : (loadOrCreate k TYPE_ZSET fun m => m.setFieldCount 0).run exec w = (.ok m, w'))
    (h : DualRecords w'.disk k m.version score) {n : ℕ} (hn : newcomers score (effectivePairs pairs) = n)
    {batch : WriteBatch} (hbatch : (effectivePairs pairs).flatMap (upserts k m.version score) = batch) :
    (zadd k pairs).run exec w = (.ok n, if batch = [] then w' else
      { w' with disk := applyBatch w'.disk (batch ++
        [.put (metaKey k) (m.setFieldCount (m.fieldCount + UInt32.ofNat n)).encode]) }) := by
  have hloop := run_zaddSteps h (effectivePairs pairs) ⟨m.fieldCount, 0, []⟩
  rw [upsertTally, hn, hbatch, List.nil_append, Int.zero_add] at hloop
  rw [zadd, Prog.run_bind_ok _ hload, Prog.run_bind_ok _ hloop]
  by_cases hnil : batch = []
  · rw [if_pos hnil, if_pos (by simpa using hnil)]
    rfl
  · rw [if_neg hnil, if_neg (by simpa using hnil)]
    rfl

/-- The deletions of a member's two records. -/
def removal (k : Bytes) (v : UInt64) (score : Bytes → Option F64) (x : Bytes) : WriteBatch :=
  .delete (subkey k v x) :: dropIndex k v (score x) x

/-- The scores without the members `xs`. -/
def without (score : Bytes → Option F64) (xs : List Bytes) : Bytes → Option F64 := fun x =>
  if x ∈ xs then none else score x

theorem DualRecords.removeAll {score : Bytes → Option F64} (h : DualRecords d k v score) {xs : List Bytes}
    (hnd : xs.Nodup) : DualRecords (applyBatch d (xs.flatMap (removal k v score))) k v (without score xs) := by
  induction xs using List.reverseRecOn with
  | nil =>
    have hnone : without score [] = score := by
      funext x
      simp [without]
    rwa [hnone]
  | append_singleton xs x ih =>
    rw [List.nodup_append] at hnd
    have hx : x ∉ xs := fun hmem => hnd.2.2 _ hmem _ (by simp) rfl
    have hprev := (ih hnd.1).remove x
    have hsame : removal k v score x = .delete (subkey k v x) :: dropIndex k v (without score xs x) x := by
      rw [removal, without, if_neg hx]
    have hwithout : without score (xs ++ [x]) = Function.update (without score xs) x none := by
      funext y
      by_cases hy : y = x
      · simp [without, hy]
      · simp [without, hy]
    rw [List.flatMap_append, applyBatch_append, List.flatMap_singleton, hsame, hwithout]
    exact hprev

theorem DualRecords.memberDeletes_eq {score : Bytes → Option F64} (h : DualRecords d k v score) {x : Bytes}
    (hx : (score x).isSome) : memberDeletes d k v x = removal k v score x := by
  obtain ⟨s, hs⟩ := Option.isSome_iff_exists.mp hx
  rw [memberDeletes, h.member, hs, removal, hs, Option.map_some, Option.getD_some, decodeScore_encodeScore]
  rfl

theorem DualRecords.scoresDecode {score : Bytes → Option F64} (h : DualRecords d k v score) (xs : List Bytes) :
    ScoresDecode d k v xs := by
  intro x _ raw hraw
  rw [h.member] at hraw
  obtain ⟨s, -, rfl⟩ := Option.map_eq_some_iff.mp hraw
  exact length_encodeScore s

theorem run_zrem {score : Bytes → Option F64} {w : World} {m : Meta} (hk : k.length < 2 ^ 32)
    (hlive : w.liveMeta k = some m) (ht : m.typeId = TYPE_ZSET) (h : DualRecords w.disk k m.version score)
    (members : List Bytes) {xs : List Bytes} (hxs : found w.disk k m.version (firsts [] members) = xs) :
    ∃ w', w'.toStore = w.toStore ∧ (zrem k members).run exec w = (.ok xs.length, if xs = [] then w'
      else if m.fieldCount.toNat ≤ xs.length then
        { w' with
          disk := (applyBatch w.disk (xs.flatMap (removal k m.version score))).erase (metaKey k)
          versions := w.versions.erase k }
      else { w' with disk := applyBatch w.disk (xs.flatMap (removal k m.version score) ++
        [.put (metaKey k) (m.setFieldCount (UInt32.ofNat (m.fieldCount.toNat - xs.length))).encode]) }) := by
  obtain ⟨w', hload, hst, -⟩ := run_loadTyped_live hlive
  have hd : w'.disk = w.disk := by rw [hst]
  have hv : w'.versions = w.versions := by rw [hst]
  obtain ⟨seen, hloop⟩ := run_zremSteps (k := k) (v := m.version) members [] ⟨m.fieldCount, 0, []⟩
    (hd.symm ▸ h.scoresDecode (firsts [] members) : ScoresDecode w'.disk k m.version (firsts [] members))
  have hgather := gathered_foldl (k := k) (v := m.version) (memberDeletes w.disk k m.version)
    (fun x op hop => by
      obtain rfl | rfl : op = _ ∨ op = _ := by simpa [memberDeletes] using hop
      · exact parseOwnerVersion_subkey hk _ x
      · exact parseOwnerVersion_zscoreKey hk _ _ x)
    (by simp [memberDeletes, WriteOp.value]) (by simp [memberDeletes, WriteOp.key]) m xs
  have hbatch := foldl_drop_batch (memberDeletes w.disk k m.version) xs ⟨m.fieldCount, 0, []⟩
  have hremoval : xs.flatMap (memberDeletes w.disk k m.version) = xs.flatMap (removal k m.version score) := by
    refine List.flatMap_congr fun x hx => h.memberDeletes_eq ?_
    rw [← hxs] at hx
    simpa [h.member] using (List.mem_filter.mp hx).2
  rw [List.nil_append, hremoval] at hbatch
  rw [ht] at hload
  rw [hd, hxs] at hloop
  refine ⟨w', hst, ?_⟩
  rw [zrem, Prog.run_bind_ok _ hload]
  dsimp only
  rw [Prog.run_bind_ok _ hloop, run_finishRemoval hgather, hbatch, hd, hv]

/-! ## Members and their number -/

theorem DualRecords.mem_members {score : Bytes → Option F64} (h : DualRecords d k v score) {x : Bytes} :
    x ∈ members d k v ↔ (score x).isSome := by
  rw [GameStore.mem_members, h.member, Option.isSome_map]

/-- The entries of the score index, in its order. -/
def entriesOf (d : Disk) (k : Bytes) (v : UInt64) : List (Bytes × F64) :=
  (prefixScan d (zscorePrefix k v)).map fun item => scoredMember (item.1.drop (zscorePrefix k v).length)

theorem DualRecords.indexes {score : Bytes → Option F64} (h : DualRecords d k v score) :
    Indexes d k v (entriesOf d k v) := by
  rw [Indexes, entriesOf, List.map_map]
  refine List.map_congr_left fun item hitem => ?_
  obtain ⟨hget, rest, hrest⟩ := mem_prefixScan.mp hitem
  rw [← hrest] at hget
  obtain ⟨s, x, rfl⟩ := h.suffixes rest (by rw [hget]; rfl)
  rw [← hrest, Function.comp_apply, ← hrest, List.drop_left, scoredMember_encodeScore, zscoreKey_eq]

theorem DualRecords.mem_entriesOf {score : Bytes → Option F64} (h : DualRecords d k v score) {x : Bytes} {s : F64} :
    (x, s) ∈ entriesOf d k v ↔ score x = some s := by
  constructor
  · intro hmem
    obtain ⟨⟨raw, value⟩, hitem, he⟩ := List.mem_map.mp hmem
    obtain ⟨hget, rest, rfl⟩ := mem_prefixScan.mp hitem
    obtain ⟨s', x', rfl⟩ := h.suffixes rest (by rw [hget]; rfl)
    dsimp only at he
    rw [List.drop_left, scoredMember_encodeScore] at he
    obtain ⟨rfl, rfl⟩ := Prod.mk.inj he
    rw [← zscoreKey_eq, h.index] at hget
    split at hget
    · assumption
    · cases hget
  · intro hx
    refine List.mem_map.mpr ⟨(zscoreKey k v s x, []), mem_prefixScan.mpr ⟨?_, ?_⟩, ?_⟩
    · rw [h.index, if_pos hx]
    · rw [zscoreKey_eq]
      exact List.prefix_append _ _
    · dsimp only
      rw [drop_zscoreKey, scoredMember_encodeScore]

theorem DualRecords.entriesOf_nodup {score : Bytes → Option F64} (h : DualRecords d k v score) :
    ((entriesOf d k v).map Prod.fst).Nodup := by
  have hnd : (entriesOf d k v).Nodup := by
    refine List.Nodup.of_map (fun e => zscoreKey k v e.2 e.1) ?_
    rw [← h.indexes]
    exact prefixScan_keys_nodup d _
  refine List.Nodup.map_on ?_ hnd
  rintro ⟨x, s⟩ hs ⟨y, s'⟩ hs' rfl
  rw [h.mem_entriesOf] at hs hs'
  rw [hs] at hs'
  rw [Option.some.inj hs']

theorem DualRecords.length_entriesOf {score : Bytes → Option F64} (h : DualRecords d k v score) :
    (entriesOf d k v).length = (members d k v).card := by
  have hset : ((entriesOf d k v).map Prod.fst).toFinset = members d k v := by
    ext x
    rw [List.mem_toFinset, h.mem_members, Option.isSome_iff_exists]
    simp [h.mem_entriesOf]
  rw [← hset, List.toFinset_card_of_nodup h.entriesOf_nodup, List.length_map]

end Dual

/-! ## The sorted set a key holds -/

/-- The score listed last for a member. -/
def lastListed (pairs : List (F64 × Bytes)) (x : Bytes) : Option F64 := (pairs.map Prod.swap).reverse.lookup x

/-- The scores after `zadd`. -/
def zaddScores (score : Bytes → Option F64) (pairs : List (F64 × Bytes)) : Bytes → Option F64 := fun x =>
  match lastListed pairs x with
  | some s => some (newScore (score x) s)
  | none => score x

section SortedSets

variable {k : Bytes} {score : Bytes → Option F64} {w : World} {m : Meta}

theorem foldl_upsert_eq {pairs : List (Bytes × F64)} (hnd : (pairs.map Prod.fst).Nodup) (x : Bytes) :
    pairs.foldl upsert score x = match pairs.lookup x with
      | some s => some (newScore (score x) s)
      | none => score x := by
  induction pairs generalizing score with
  | nil => rfl
  | cons p pairs ih =>
    obtain ⟨y, s⟩ := p
    rw [List.map_cons, List.nodup_cons] at hnd
    rw [List.foldl_cons, ih hnd.2, lookup_cons_eq]
    by_cases hx : x = y
    · subst hx
      have hnone : pairs.lookup x = none := by
        rw [List.lookup_eq_none_iff]
        intro q hq
        have hne : x ≠ q.1 := by
          rintro rfl
          exact hnd.1 (List.mem_map.mpr ⟨q, hq, rfl⟩)
        simpa using hne
      simp [hnone, upsert]
    · rw [if_neg hx, upsert, Function.update_of_ne hx]

theorem foldl_upsert_effectivePairs (pairs : List (F64 × Bytes)) :
    (effectivePairs pairs).foldl upsert score = zaddScores score pairs := by
  funext x
  rw [foldl_upsert_eq (effectivePairs_nodup pairs), zaddScores]
  have hlookup : (effectivePairs pairs).lookup x = lastListed pairs x := by
    apply Option.ext
    intro s
    rw [lookup_eq_some_iff_mem (effectivePairs_nodup pairs), mem_effectivePairs]
    rfl
  rw [hlookup]

theorem zaddScores_isSome (score : Bytes → Option F64) (pairs : List (F64 × Bytes)) (x : Bytes) :
    (zaddScores score pairs x).isSome ↔ (score x).isSome ∨ x ∈ pairs.map Prod.snd := by
  have hlisted : (lastListed pairs x).isSome ↔ x ∈ pairs.map Prod.snd := by
    rw [lastListed, List.lookup_isSome_iff]
    simp
  rw [zaddScores, ← hlisted]
  cases lastListed pairs x with
  | none => simp
  | some s => simp

/-- The members that `zadd` counts as new are those listed that were not there. -/
theorem newcomers_effectivePairs {S : Finset Bytes} (hS : ∀ x, x ∈ S ↔ (score x).isSome)
    (pairs : List (F64 × Bytes)) :
    newcomers score (effectivePairs pairs) = ((pairs.map Prod.snd).toFinset \ S).card := by
  have hnd : (((effectivePairs pairs).filter fun p => (score p.1).isNone).map Prod.fst).Nodup :=
    (effectivePairs_nodup pairs).sublist (List.filter_sublist.map _)
  have hset : (((effectivePairs pairs).filter fun p => (score p.1).isNone).map Prod.fst).toFinset =
      (pairs.map Prod.snd).toFinset \ S := by
    ext x
    have hlisted : (∃ s, (x, s) ∈ effectivePairs pairs) ↔ x ∈ pairs.map Prod.snd := by
      simp only [mem_effectivePairs]
      rw [← Option.isSome_iff_exists, List.lookup_isSome_iff]
      simp
    rw [Finset.mem_sdiff, hS, List.mem_toFinset, List.mem_toFinset, ← hlisted]
    simp
  rw [newcomers, ← hset, List.toFinset_card_of_nodup hnd, List.length_map]

/-- The metadata `m` goes with the scores. -/
structure ZSetMeta (d : Disk) (k : Bytes) (m : Meta) (score : Bytes → Option F64) : Prop where
  typed : m.typeId = TYPE_ZSET
  dual : DualRecords d k m.version score
  counted : m.fieldCount.toNat = (members d k m.version).card

/-- The key is stored with the scores and the deadline `expireMs`; without members there is
no key. -/
inductive HoldsZSet (d : Disk) (k : Bytes) (expireMs : UInt64) : (Bytes → Option F64) → Prop
  | gone (h : d[metaKey k]? = none) : HoldsZSet d k expireMs fun _ => none
  | holds {score : Bytes → Option F64} {m : Meta} (hm : readMeta d k = some m) (hsome : ∃ x, (score x).isSome)
      (he : m.expireMs = expireMs) (h : ZSetMeta d k m score) : HoldsZSet d k expireMs score

/-- A sorted set has fewer than `2 ^ 32` members. -/
def SmallZSet (d : Disk) (k : Bytes) : Prop :=
  ∀ m, readMeta d k = some m → m.typeId = TYPE_ZSET → (members d k m.version).card < 2 ^ 32

theorem upserts_records (hk : k.length < 2 ^ 32) (v : UInt64) (pairs : List (Bytes × F64)) :
    Records k v (pairs.flatMap (upserts k v score)) := by
  intro op hop
  obtain ⟨p, -, hop⟩ := List.mem_flatMap.mp hop
  rw [upserts] at hop
  split at hop
  · cases hop
  · rw [replaces, List.mem_append] at hop
    rcases hop with hop | hop
    · obtain ⟨o, -, rfl⟩ := List.mem_map.mp hop
      exact parseOwnerVersion_zscoreKey hk v o p.1
    · obtain rfl | rfl : op = _ ∨ op = _ := by simpa [memberPuts] using hop
      · exact parseOwnerVersion_subkey hk v p.1
      · exact parseOwnerVersion_zscoreKey hk v p.2 p.1

theorem removal_records (hk : k.length < 2 ^ 32) (v : UInt64) (xs : List Bytes) :
    Records k v (xs.flatMap (removal k v score)) := by
  intro op hop
  obtain ⟨x, -, hop⟩ := List.mem_flatMap.mp hop
  rw [removal, List.mem_cons] at hop
  rcases hop with rfl | hop
  · exact parseOwnerVersion_subkey hk v x
  · obtain ⟨o, -, rfl⟩ := List.mem_map.mp hop
    exact parseOwnerVersion_zscoreKey hk v o x

/-- What `zadd` leaves, once the metadata is loaded or made; the number of members is not
looked at here. -/
structure Upserted (d d' : Disk) (k : Bytes) (m : Meta) (score : Bytes → Option F64)
    (pairs : List (F64 × Bytes)) : Prop where
  dual : DualRecords d' k m.version (zaddScores score pairs)
  grown : members d' k m.version = members d k m.version ∪ (pairs.map Prod.snd).toFinset
  stored : d' = d ∨ pairs ≠ [] ∧ readMeta d' k = some (m.setFieldCount (m.fieldCount +
    UInt32.ofNat ((pairs.map Prod.snd).toFinset \ members d k m.version).card))

theorem zadd_upserted (hk : k.length < 2 ^ 32) {w' : World}
    (hload : (loadOrCreate k TYPE_ZSET fun m => m.setFieldCount 0).run exec w = (.ok m, w'))
    (h : DualRecords w'.disk k m.version score) (pairs : List (F64 × Bytes)) :
    ((zadd k pairs).run exec w).1 =
        .ok (((pairs.map Prod.snd).toFinset \ members w'.disk k m.version).card : ℤ) ∧
      Upserted w'.disk ((zadd k pairs).run exec w).2.disk k m score pairs := by
  have hnew := newcomers_effectivePairs (fun x => h.mem_members) pairs
  have hrun := run_zadd pairs hload h hnew rfl
  have hdual := (h.upsertAll (effectivePairs_nodup pairs)).1
  rw [foldl_upsert_effectivePairs] at hdual
  have hgrown : ∀ {d' : Disk}, DualRecords d' k m.version (zaddScores score pairs) →
      members d' k m.version = members w'.disk k m.version ∪ (pairs.map Prod.snd).toFinset := by
    intro d' hd'
    ext x
    rw [hd'.mem_members, zaddScores_isSome, Finset.mem_union, h.mem_members, List.mem_toFinset]
  set batch := (effectivePairs pairs).flatMap (upserts k m.version score) with hbatch
  rw [hrun]
  refine ⟨rfl, ?_⟩
  by_cases hnil : batch = []
  · rw [if_pos hnil]
    rw [hnil] at hdual
    exact ⟨hdual, hgrown hdual, .inl rfl⟩
  · rw [if_neg hnil]
    have hr : Records k m.version batch := upserts_records hk m.version _
    have hput := dualRecords_congr hk (fun raw hraw => getElem?_record_putMeta w'.disk batch
      (m.setFieldCount (m.fieldCount + UInt32.ofNat
        ((pairs.map Prod.snd).toFinset \ members w'.disk k m.version).card)) hraw) hdual
    have hne : pairs ≠ [] := by
      rintro rfl
      exact hnil rfl
    exact ⟨hput, hgrown hput, .inr ⟨hne, (readMeta_putMeta hr _ _ _).trans (if_pos rfl)⟩⟩

/-- What `zrem` leaves of a live sorted set. -/
inductive ZRemoved (d d' : Disk) (k : Bytes) (m : Meta) (score : Bytes → Option F64) (listed : List Bytes) : Prop
  | none (h : d' = d) (hnone : Disjoint listed.toFinset (members d k m.version)) : ZRemoved d d' k m score listed
  | gone (h : d'[metaKey k]? = none)
      (hall : m.fieldCount.toNat ≤ (listed.toFinset ∩ members d k m.version).card) : ZRemoved d d' k m score listed
  | some (hm : readMeta d' k = .some (m.setFieldCount (UInt32.ofNat
        (m.fieldCount.toNat - (listed.toFinset ∩ members d k m.version).card))))
      (hdual : DualRecords d' k m.version (without score listed))
      (hrest : (listed.toFinset ∩ members d k m.version).card < m.fieldCount.toNat) :
      ZRemoved d d' k m score listed

theorem zrem_removed (hk : k.length < 2 ^ 32) (hlive : w.liveMeta k = some m) (ht : m.typeId = TYPE_ZSET)
    (h : DualRecords w.disk k m.version score) (listed : List Bytes) :
    ((zrem k listed).run exec w).1 = .ok ((listed.toFinset ∩ members w.disk k m.version).card : ℤ) ∧
      ZRemoved w.disk ((zrem k listed).run exec w).2.disk k m score listed := by
  obtain ⟨w', hst, hrun⟩ := run_zrem hk hlive ht h listed rfl
  obtain ⟨hset, hlen⟩ := found_firsts (k := k) (v := m.version) w.disk listed
  have hnd : (found w.disk k m.version (firsts [] listed)).Nodup := (firsts_nodup [] listed).filter _
  have hdual := h.removeAll hnd
  set xs := found w.disk k m.version (firsts [] listed) with hxs
  have hwithout : without score xs = without score listed := by
    funext x
    by_cases hx : (score x).isSome
    · have hiff : x ∈ xs ↔ x ∈ listed := by
        rw [← List.mem_toFinset, hset, Finset.mem_inter, List.mem_toFinset, h.mem_members]
        exact and_iff_left hx
      simp only [without, hiff]
    · rw [Option.not_isSome_iff_eq_none] at hx
      simp only [without, hx, ite_self]
  rw [hrun, hlen]
  refine ⟨rfl, ?_⟩
  by_cases hnil : xs = []
  · rw [if_pos hnil]
    refine .none (by rw [hst]) ?_
    rw [Finset.disjoint_iff_inter_eq_empty, ← hset, hnil, List.toFinset_nil]
  · rw [if_neg hnil]
    by_cases hall : m.fieldCount.toNat ≤ (listed.toFinset ∩ members w.disk k m.version).card
    · rw [if_pos hall]
      exact .gone ((getElem?_erase_bytes _ _ _).trans (if_pos rfl)) hall
    · rw [if_neg hall]
      refine .some ((readMeta_putMeta (removal_records hk m.version xs) _ _ _).trans (if_pos rfl)) ?_ (by omega)
      rw [← hwithout]
      exact dualRecords_congr hk (fun raw hraw => getElem?_record_putMeta w.disk _ _ hraw) hdual

theorem members_without {d d' : Disk} {v : UInt64} (h : DualRecords d k v score) {listed : List Bytes}
    (h' : DualRecords d' k v (without score listed)) : members d' k v = members d k v \ listed.toFinset := by
  ext x
  rw [h'.mem_members, Finset.mem_sdiff, h.mem_members, List.mem_toFinset, without]
  by_cases hx : x ∈ listed
  · simp [hx]
  · simp [hx]

/-! ## Whole runs -/

/-- No score is NaN. -/
def Numeric (score : Bytes → Option F64) : Prop := ∀ x s, score x = some s → s.isNaN = false

theorem numeric_none : Numeric fun _ => none := by
  intro x s hs
  cases hs

theorem lastListed_mem {pairs : List (F64 × Bytes)} {x : Bytes} {s : F64} (h : lastListed pairs x = some s) :
    (s, x) ∈ pairs := by
  obtain ⟨l, l', he, -⟩ := List.lookup_eq_some_iff.mp h
  have hmem : (x, s) ∈ (pairs.map Prod.swap).reverse := by
    rw [he]
    simp
  rw [List.mem_reverse, List.mem_map] at hmem
  obtain ⟨p, hp, hswap⟩ := hmem
  rw [← Prod.swap_swap p, hswap] at hp
  exact hp

theorem newScore_eq (old : Option F64) {s : F64} (h : s.isNaN = false) : (newScore old s).eq s := by
  rw [newScore]
  cases hold : old.any (·.eq s) with
  | false => simp [F64.eq, h]
  | true =>
    obtain ⟨o, rfl, ho⟩ := (Option.any_eq_true ..).mp hold
    exact ho

theorem Numeric.zadd (h : Numeric score) {pairs : List (F64 × Bytes)} (hp : ∀ p ∈ pairs, p.1.isNaN = false) :
    Numeric (zaddScores score pairs) := by
  intro x s hs
  rw [zaddScores] at hs
  split at hs
  · rename_i s₀ hlast
    have heq := newScore_eq (score x) (hp _ (lastListed_mem hlast))
    rw [Option.some.inj hs] at heq
    simp only [F64.eq, Bool.and_eq_true, Bool.not_eq_true'] at heq
    exact heq.1.1
  · exact h x s hs

theorem Numeric.without (h : Numeric score) (listed : List Bytes) : Numeric (without score listed) := by
  intro x s hs
  rw [GameStore.without] at hs
  split at hs
  · cases hs
  · exact h x s hs

/-- The records of a sorted set are in step, there are some, and their number is stored as
far as it fits. In runs that list numbers only, the scores are numbers. -/
structure ZSetKept (numeric : Prop) (d : Disk) (k : Bytes) (m : Meta) : Prop where
  dual : ∃ score, DualRecords d k m.version score ∧ (numeric → Numeric score)
  some : (members d k m.version).Nonempty
  count : m.fieldCount = UInt32.ofNat (members d k m.version).card

theorem ZSetKept.counted {numeric : Prop} {d : Disk} (h : ZSetKept numeric d k m)
    (hsmall : (members d k m.version).card < 2 ^ 32) : m.fieldCount.toNat = (members d k m.version).card := by
  rw [h.count, UInt32.toNat_ofNat', Nat.mod_eq_of_lt hsmall]

theorem zsetKept_untouched {numeric : Prop} {d d' : Disk} {key : Key} {m m' : Meta}
    (h : Untouched key.1 d d' m m') (hm : ZSetKept numeric d key.1 m) : ZSetKept numeric d' key.1 m' := by
  obtain ⟨score, hdual, hnum⟩ := hm.dual
  have hmembers : members d' key.1 m'.version = members d key.1 m.version := by
    rw [h.same]
    exact members_congr key.2 h.records
  refine ⟨⟨score, ?_, hnum⟩, hmembers ▸ hm.some, ?_⟩
  · rw [h.same]
    exact dualRecords_congr key.2 h.records hdual
  · rw [hmembers, h.same]
    exact hm.count

theorem zsetKept_upserted {numeric : Prop} {d d' : Disk} {pairs : List (F64 × Bytes)} {m' : Meta}
    (ht : m.typeId = TYPE_ZSET) (hnum : numeric → Numeric score ∧ ∀ p ∈ pairs, p.1.isNaN = false)
    (hcount : m.fieldCount = UInt32.ofNat (members d k m.version).card)
    (hsame : d' = d → ZSetKept numeric d k m') (hup : Upserted d d' k m score pairs)
    (hm' : readMeta d' k = some m') : ZSetKept numeric d' k m' := by
  rcases hup.stored with rfl | ⟨hne, hnew⟩
  · exact hsame rfl
  · obtain rfl := Option.some.inj (hnew.symm.trans hm')
    refine ⟨⟨_, hup.dual, fun hn => (hnum hn).1.zadd (hnum hn).2⟩, ?_, ?_⟩
    · obtain ⟨p, hp⟩ := List.exists_mem_of_ne_nil _ hne
      change (members d' k m.version).Nonempty
      rw [hup.grown]
      exact ⟨p.2, Finset.mem_union_right _ (List.mem_toFinset.mpr (List.mem_map_of_mem hp))⟩
    · have hcard : (members d' k m.version).card = (members d k m.version).card +
          ((pairs.map Prod.snd).toFinset \ members d k m.version).card := by
        rw [hup.grown, ← Finset.union_sdiff_self_eq_union, Finset.card_union_of_disjoint Finset.disjoint_sdiff]
      change (m.setFieldCount _).fieldCount = UInt32.ofNat (members d' k m.version).card
      rw [Meta.fieldCount_setFieldCount (by simp [Meta.counted, ht]), hcount, hcard, UInt32.ofNat_add]

/-- What `zrem` leaves is counted, if what was there is. -/
theorem rest_counted {d d' : Disk} {listed : List Bytes} (ht : m.typeId = TYPE_ZSET)
    (h : DualRecords d k m.version score) (h' : DualRecords d' k m.version (without score listed))
    (hcount : m.fieldCount = UInt32.ofNat (members d k m.version).card)
    (hrest : (listed.toFinset ∩ members d k m.version).card < m.fieldCount.toNat) :
    (members d' k m.version).Nonempty ∧ (m.setFieldCount (UInt32.ofNat
      (m.fieldCount.toNat - (listed.toFinset ∩ members d k m.version).card))).fieldCount =
        UInt32.ofNat (members d' k m.version).card := by
  have hcard : (members d' k m.version).card = (members d k m.version).card -
      (listed.toFinset ∩ members d k m.version).card := by
    rw [members_without h h', Finset.card_sdiff]
  have hnat : m.fieldCount.toNat = (members d k m.version).card % 2 ^ 32 := by
    rw [hcount, UInt32.toNat_ofNat']
  constructor
  · rw [← Finset.card_pos, hcard]
    omega
  · rw [Meta.fieldCount_setFieldCount (by simp [Meta.counted, ht]), hcard]
    apply UInt32.toNat_inj.mp
    rw [UInt32.toNat_ofNat', UInt32.toNat_ofNat']
    omega

theorem zsetKept_removed {numeric : Prop} {d d' : Disk} {listed : List Bytes} {m' : Meta}
    (ht : m.typeId = TYPE_ZSET) (hm : readMeta d k = some m) (h : DualRecords d k m.version score)
    (hkept : ZSetKept numeric d k m) (hnum : numeric → Numeric score)
    (hrem : ZRemoved d d' k m score listed) (hm' : readMeta d' k = some m') : ZSetKept numeric d' k m' := by
  cases hrem with
  | none hd hnone =>
    subst hd
    obtain rfl : m = m' := Option.some.inj (hm.symm.trans hm')
    exact hkept
  | gone hgone hall =>
    rw [readMeta, hgone] at hm'
    cases hm'
  | some hnew hdual hrest =>
    obtain rfl := Option.some.inj (hnew.symm.trans hm')
    obtain ⟨hsome, hcount⟩ := rest_counted ht h hdual hkept.count hrest
    exact ⟨⟨_, hdual, fun hn => (hnum hn).without listed⟩, hsome, hcount⟩

/-- The operation lists no score that is NaN. -/
def Op.numeric : Op → Prop
  | .keyed _ (.zadd pairs) => ∀ p ∈ pairs, p.1.isNaN = false
  | _ => True

theorem zsetsKept_step {numeric : Prop} {op : Op} (he : Ascending w (.run op)) (hop : numeric → op.numeric)
    (hw : w.Orderly) (hkept : Kept TYPE_ZSET (ZSetKept numeric) w.disk) :
    Kept TYPE_ZSET (ZSetKept numeric) (op.run w).2.disk := by
  refine kept_run (fun m hm => composite_of_type (.inr (.inr (.inl hm))))
    (fun d d' key m m' h => zsetKept_untouched h) hw he hkept ?_
  rintro key op' rfl hkind htyped m' hm'
  have hdisk : ∀ {α : Type} {p : StoreM α} {g : α → Reply}, op'.prog key.1 = g <$> p →
      ((Op.keyed key op').run w).2 = (p.run exec w).2 := by
    intro α p g hp
    rw [Op.run, Op.prog, hp, Prog.run_map]
  cases op' with
  | zadd pairs =>
    rw [hdisk rfl] at hm' ⊢
    cases hlive : w.liveMeta key.1 with
    | some m =>
      have hm := readMeta_of_liveMeta hlive
      have hold := hkept key m hm (htyped m hlive)
      obtain ⟨score, hdual, hnum⟩ := hold.dual
      obtain ⟨w', hload, hst, -⟩ := run_loadOrCreate_live hlive fun m => m.setFieldCount 0
      have hd : w'.disk = w.disk := by rw [hst]
      rw [htyped m hlive] at hload
      rw [← hd] at hdual hold hm
      refine zsetKept_upserted (htyped m hlive) (fun hn => ⟨hnum hn, hop hn⟩) hold.count (fun hsame => ?_)
        (zadd_upserted key.2 hload hdual pairs).2 hm'
      rw [hsame, hm] at hm'
      obtain rfl := Option.some.inj hm'
      exact hold
    | none =>
      have habs := hw.absent hlive
      obtain ⟨w', hload, hd⟩ := run_loadOrCreate_absent habs TYPE_ZSET fun m => m.setFieldCount 0
      have hnew : Unused w'.disk key.1 w.nextIssue :=
        hd ▸ (hw.unused (show (KeyOp.zadd pairs).creates from rfl) he habs).erase (metaKey key.1)
      have hdual := dualRecords_unused key.2 hnew
      have hgone : readMeta w'.disk key.1 = none := by
        rw [hd, readMeta, getElem?_erase_bytes, if_pos rfl]
        rfl
      have hcount : ((newMeta TYPE_ZSET w.nextIssue).setFieldCount 0).fieldCount =
          UInt32.ofNat (members w'.disk key.1 w.nextIssue).card := by
        rw [members_unused key.2 hnew]
        exact Meta.fieldCount_setFieldCount (m := newMeta TYPE_ZSET _) rfl 0
      refine zsetKept_upserted rfl (fun hn => ⟨numeric_none, hop hn⟩) hcount (fun hsame => ?_)
        (zadd_upserted key.2 hload hdual pairs).2 hm'
      rw [hsame, hgone] at hm'
      cases hm'
  | zrem listed =>
    cases hlive : w.liveMeta key.1 with
    | some m =>
      have hm := readMeta_of_liveMeta hlive
      have hold := hkept key m hm (htyped m hlive)
      obtain ⟨score, hdual, hnum⟩ := hold.dual
      rw [hdisk rfl] at hm' ⊢
      exact zsetKept_removed (htyped m hlive) hm hdual hold hnum
        (zrem_removed key.2 hlive (htyped m hlive) hdual listed).2 hm'
    | none =>
      obtain ⟨w', hload, hst, -⟩ := run_loadTyped_absent (hw.absent hlive) TYPE_ZSET
      have hrun : (zrem key.1 listed).run exec w = (.ok 0, w') := by
        rw [zrem, Prog.run_bind_ok _ hload]
        rfl
      rw [hdisk rfl, hrun, readMeta, hst.getElem?_metaKey] at hm'
      cases hm'
  | _ => cases hkind

/-! ## What the operations do -/

/-- A step of a run that lists no NaN and in which every sorted set stays below `2 ^ 32`
members. -/
def ZSetStep (w : World) : Event → Prop
  | .run op => InOrder w (.run op) ∧ op.numeric ∧ ∀ key : Key, SmallZSet (op.run w).2.disk key.1
  | _ => False

/-- On a key that holds the members `S` with their scores (nothing, if it is absent) and the
deadline `expireMs`, the operations are those of a finite map. -/
structure ActsAsSortedSet (w : World) (key : Key) (expireMs : UInt64) (S : Finset Bytes)
    (score : Bytes → Option F64) : Prop where
  domain : ∀ x, x ∈ S ↔ (score x).isSome
  zcard : ((Op.keyed key .zcard).run w).1 = .ok (.int S.card)
  zscore : ∀ x, ((Op.keyed key (.zscore x)).run w).1 = .ok (.score (score x))
  zadd : ∀ pairs, ZSetStep w (.run (.keyed key (.zadd pairs))) →
    ((Op.keyed key (.zadd pairs)).run w).1 = .ok (.int ((pairs.map Prod.snd).toFinset \ S).card) ∧
      HoldsZSet ((Op.keyed key (.zadd pairs)).run w).2.disk key.1 expireMs (zaddScores score pairs) ∧
      ∀ x s, lastListed pairs x = some s → ∃ s', zaddScores score pairs x = some s' ∧ s'.eq s
  zrem : ∀ listed, ZSetStep w (.run (.keyed key (.zrem listed))) →
    ((Op.keyed key (.zrem listed)).run w).1 = .ok (.int (listed.toFinset ∩ S).card) ∧
      HoldsZSet ((Op.keyed key (.zrem listed)).run w).2.disk key.1 expireMs (without score listed)

theorem zaddScores_eq {pairs : List (F64 × Bytes)} (hp : ∀ p ∈ pairs, p.1.isNaN = false) {x : Bytes} {s : F64}
    (h : lastListed pairs x = some s) : ∃ s', zaddScores score pairs x = some s' ∧ s'.eq s :=
  ⟨newScore (score x) s, by simp [zaddScores, h], newScore_eq (score x) (hp _ (lastListed_mem h))⟩

theorem Upserted.holdsZSet {d d' : Disk} {pairs : List (F64 × Bytes)} (hup : Upserted d d' k m score pairs)
    (ht : m.typeId = TYPE_ZSET) (hne : pairs ≠ []) (hsame : d' = d → readMeta d k = some m) (hsmall : SmallZSet d' k)
    (hkept : ∀ m', readMeta d' k = some m' → m'.typeId = TYPE_ZSET → ZSetKept True d' k m') :
    HoldsZSet d' k m.expireMs (zaddScores score pairs) := by
  have hsome : ∃ x, (zaddScores score pairs x).isSome := by
    obtain ⟨p, hp⟩ := List.exists_mem_of_ne_nil _ hne
    exact ⟨p.2, (zaddScores_isSome score pairs p.2).mpr (.inr (List.mem_map_of_mem hp))⟩
  rcases hup.stored with rfl | ⟨-, hnew⟩
  · have hm := hsame rfl
    exact .holds hm hsome rfl ⟨ht, hup.dual, (hkept m hm ht).counted (hsmall m hm ht)⟩
  · exact .holds hnew hsome rfl ⟨ht, hup.dual, (hkept _ hnew ht).counted (hsmall _ hnew ht)⟩

theorem ZRemoved.holdsZSet {d d' : Disk} {listed : List Bytes} (hrem : ZRemoved d d' k m score listed)
    (hm : readMeta d k = .some m) (hz : ZSetMeta d k m score) (hsome : (members d k m.version).Nonempty) :
    HoldsZSet d' k m.expireMs (without score listed) := by
  cases hrem with
  | none hd hnone =>
    subst hd
    have hsame : without score listed = score := by
      funext x
      by_cases hx : x ∈ listed
      · have hout : x ∉ members d' k m.version :=
          Finset.disjoint_left.mp hnone (List.mem_toFinset.mpr hx)
        rw [hz.dual.mem_members, Option.not_isSome_iff_eq_none] at hout
        simp [without, hout]
      · simp [without, hx]
    rw [hsame]
    obtain ⟨x, hx⟩ := hsome
    exact .holds hm ⟨x, hz.dual.mem_members.mp hx⟩ rfl hz
  | gone hgone hall =>
    -- All members are listed, for there are as many as the count says.
    rw [hz.counted] at hall
    have heq := Finset.eq_of_subset_of_card_le Finset.inter_subset_right hall
    have hempty : without score listed = fun _ => .none := by
      funext x
      by_cases hx : x ∈ listed
      · simp [without, hx]
      · have hout : x ∉ members d k m.version := by
          rw [← heq, Finset.mem_inter, List.mem_toFinset]
          exact fun h => hx h.1
        rw [hz.dual.mem_members, Option.not_isSome_iff_eq_none] at hout
        simp [without, hout]
    rw [hempty]
    exact .gone hgone
  | some hnew hdual hrest =>
    have hofNat : m.fieldCount = UInt32.ofNat (members d k m.version).card := by
      rw [← hz.counted, UInt32.ofNat_toNat]
    obtain ⟨⟨x, hx⟩, hcount⟩ := rest_counted hz.typed hz.dual hdual hofNat hrest
    have hlt : (members d' k m.version).card < 2 ^ 32 := by
      have hle : (members d' k m.version).card ≤ (members d k m.version).card := by
        rw [members_without hz.dual hdual]
        exact Finset.card_le_card Finset.sdiff_subset
      have := m.fieldCount.toNat_lt
      rw [hz.counted] at this
      omega
    refine .holds hnew ⟨x, hdual.mem_members.mp hx⟩ rfl ⟨hz.typed, hdual, ?_⟩
    rw [hcount, UInt32.toNat_ofNat', Nat.mod_eq_of_lt hlt]
    rfl

theorem run_zscore_dual {key : Key} (hlive : w.liveMeta key.1 = some m) (ht : m.typeId = TYPE_ZSET)
    (h : DualRecords w.disk key.1 m.version score) (x : Bytes) :
    ((Op.keyed key (.zscore x)).run w).1 = .ok (.score (score x)) := by
  refine (run_zscore_live hlive ht (h.scoresDecode [x] x (List.mem_singleton_self x))).trans ?_
  rw [h.member, Option.map_map]
  congr 2
  cases score x with
  | none => rfl
  | some s => exact congrArg some (decodeScore_encodeScore s)

theorem actsAsSortedSet_live {key : Key} (hw : w.Orderly) (hkept : Kept TYPE_ZSET (ZSetKept True) w.disk)
    (hlive : w.liveMeta key.1 = some m) (hz : ZSetMeta w.disk key.1 m score)
    (hsome : (members w.disk key.1 m.version).Nonempty) :
    ActsAsSortedSet w key m.expireMs (members w.disk key.1 m.version) score where
  domain x := hz.dual.mem_members
  zcard := by
    have hcount := run_storedCount_live hlive
    rw [hz.typed, hz.counted] at hcount
    exact (run_keyed key .zcard rfl hcount).1
  zscore x := run_zscore_dual hlive hz.typed hz.dual x
  zadd pairs hstep := by
    obtain ⟨w', hload, hst, -⟩ := run_loadOrCreate_live hlive fun m => m.setFieldCount 0
    rw [hz.typed] at hload
    have hd : w'.disk = w.disk := by rw [hst]
    obtain ⟨hreply, hup⟩ := zadd_upserted key.2 hload (hd ▸ hz.dual) pairs
    obtain ⟨hr, hs⟩ := run_keyed key (.zadd pairs) rfl hreply
    have hafter := zsetsKept_step hstep.1.ascending (fun _ => hstep.2.1) hw hkept
    rw [hd] at hr
    refine ⟨hr, ?_, fun x s => zaddScores_eq hstep.2.1⟩
    have hsmall := hstep.2.2 key
    rw [hs] at hafter hsmall ⊢
    exact hup.holdsZSet hz.typed (by simpa [Op.wellCalled, KeyOp.wellCalled] using hstep.1.1)
      (fun _ => hd ▸ readMeta_of_liveMeta hlive) hsmall (hafter key)
  zrem listed hstep := by
    obtain ⟨hreply, hrem⟩ := zrem_removed key.2 hlive hz.typed hz.dual listed
    obtain ⟨hr, hs⟩ := run_keyed key (.zrem listed) rfl hreply
    exact ⟨hr, hs ▸ hrem.holdsZSet (readMeta_of_liveMeta hlive) hz hsome⟩

theorem actsAsSortedSet_absent {key : Key} (hw : w.Orderly) (hkept : Kept TYPE_ZSET (ZSetKept True) w.disk)
    (habs : w.Absent key.1) : ActsAsSortedSet w key 0 ∅ fun _ => none where
  domain x := by simp
  zcard := run_read_absent key rfl habs
  zscore x := run_read_absent key rfl habs
  zadd pairs hstep := by
    obtain ⟨w', hload, hd⟩ := run_loadOrCreate_absent habs TYPE_ZSET fun m => m.setFieldCount 0
    have hnew : Unused w'.disk key.1 w.nextIssue :=
      hd ▸ (hw.unused (show (KeyOp.zadd pairs).creates from rfl) hstep.1.2 habs).erase (metaKey key.1)
    have hne : pairs ≠ [] := by simpa [Op.wellCalled, KeyOp.wellCalled] using hstep.1.1
    obtain ⟨hreply, hup⟩ := zadd_upserted key.2 hload (dualRecords_unused key.2 hnew) pairs
    obtain ⟨hr, hs⟩ := run_keyed key (.zadd pairs) rfl hreply
    have hafter := zsetsKept_step hstep.1.ascending (fun _ => hstep.2.1) hw hkept
    have hempty : members w'.disk key.1 w.nextIssue = ∅ := members_unused key.2 hnew
    change _ = Except.ok (Reply.int ((pairs.map Prod.snd).toFinset \ members w'.disk key.1 w.nextIssue).card) at hr
    rw [hempty] at hr
    refine ⟨hr, ?_, fun x s => zaddScores_eq hstep.2.1⟩
    have hsmall := hstep.2.2 key
    rw [hs] at hafter hsmall ⊢
    refine hup.holdsZSet rfl hne (fun hsame => ?_) hsmall (hafter key)
    -- Nothing written, nothing listed.
    have hgrown := hup.grown
    change members _ key.1 w.nextIssue = members w'.disk key.1 w.nextIssue ∪ _ at hgrown
    rw [hsame, hempty, Finset.empty_union, eq_comm, List.toFinset_eq_empty_iff, List.map_eq_nil_iff] at hgrown
    exact absurd hgrown hne
  zrem listed hstep := by
    obtain ⟨w', hload, hst, -⟩ := run_loadTyped_absent habs TYPE_ZSET
    have hrun : (GameStore.zrem key.1 listed).run exec w = (.ok 0, w') := by
      rw [GameStore.zrem, Prog.run_bind_ok _ hload]
      rfl
    obtain ⟨hr, hs⟩ := run_keyed key (.zrem listed) rfl (congrArg Prod.fst hrun)
    have hnone : without (fun _ => none) listed = fun _ => none := by
      funext x
      simp [without]
    rw [hr, hs, hrun, Finset.inter_empty, hnone]
    exact ⟨rfl, .gone hst.getElem?_metaKey⟩

theorem zsetsKept_opened (numeric : Prop) (clock : Clock) :
    Kept TYPE_ZSET (ZSetKept numeric) (World.opened ∅ clock).disk := by
  intro key m hm
  rw [opened_eq, readMeta, ExtTreeMap.getElem?_empty] at hm
  cases hm

/-- In every state of a sequential run from an empty store: under the version of a live
sorted set the member records and the index records are in bijection, there are some, and
the key acts as the finite map of its scores; an absent key acts as the empty one. -/
theorem sortedSets_refine_finite_maps (clock : Clock) (es : List Event)
    (hes : Steps ZSetStep (World.opened ∅ clock) es) (key : Key) :
    (∀ m, ((World.opened ∅ clock).after es).liveMeta key.1 = some m → m.typeId = TYPE_ZSET →
      ∃ (S : Finset Bytes) (score : Bytes → Option F64), S.Nonempty ∧
        DualRecords ((World.opened ∅ clock).after es).disk key.1 m.version score ∧
        (∀ x s, ((World.opened ∅ clock).after es).disk[subkey key.1 m.version x]? = some (encodeScore s) ↔
          ∀ s', ((World.opened ∅ clock).after es).disk[zscoreKey key.1 m.version s' x]?.isSome ↔ s' = s) ∧
        S.card = (prefixScan ((World.opened ∅ clock).after es).disk (subkeyPrefix key.1 m.version)).length ∧
        S.card = (prefixScan ((World.opened ∅ clock).after es).disk (zscorePrefix key.1 m.version)).length ∧
        ActsAsSortedSet ((World.opened ∅ clock).after es) key m.expireMs S score) ∧
    (((World.opened ∅ clock).after es).liveMeta key.1 = none →
      ActsAsSortedSet ((World.opened ∅ clock).after es) key 0 ∅ fun _ => none) := by
  have hempty : ∀ key : Key, SmallZSet (World.opened ∅ clock).disk key.1 := by
    intro key m hm
    rw [opened_eq, readMeta, ExtTreeMap.getElem?_empty] at hm
    cases hm
  obtain ⟨hw, hkept, hsmall⟩ := hes.induction
    (I := fun w => w.Orderly ∧ Kept TYPE_ZSET (ZSetKept True) w.disk ∧ ∀ key : Key, SmallZSet w.disk key.1)
    (fun w e he h => by
      cases e with
      | failing op n => exact he.elim
      | restart clock => exact he.elim
      | run op =>
        exact ⟨orderly_step he.1.ascending h.1,
          zsetsKept_step he.1.ascending (fun _ => he.2.1) h.1 h.2.1, he.2.2⟩)
    ⟨orderly_opened clock, zsetsKept_opened True clock, hempty⟩
  constructor
  · intro m hlive ht
    have hm := readMeta_of_liveMeta hlive
    have hzset := hkept key m hm ht
    obtain ⟨score, hdual, -⟩ := hzset.dual
    have hlen : (members ((World.opened ∅ clock).after es).disk key.1 m.version).card =
        (prefixScan ((World.opened ∅ clock).after es).disk (zscorePrefix key.1 m.version)).length := by
      rw [← hdual.length_entriesOf, entriesOf, List.length_map]
    exact ⟨_, score, hzset.some, hdual, hdual.bijection, card_members _, hlen,
      actsAsSortedSet_live hw hkept hlive ⟨ht, hdual, hzset.counted (hsmall key m hm ht)⟩ hzset.some⟩
  · intro hlive
    exact actsAsSortedSet_absent hw hkept (hw.absent hlive)

end SortedSets

/-- Short runs do not come near the limit. -/
theorem zsetStep_of_check {w : World} {op : Op} (hcall : op.wellCalled) (hnum : op.numeric)
    (h : op.prog.Always exec (fun o w => o.issuesAbove w) w)
    (hsize : (op.run w).2.disk.toList.length < 2 ^ 32) : ZSetStep w (.run op) := by
  refine ⟨inOrder_of_check hcall h, hnum, fun key m _ _ => ?_⟩
  rw [card_members]
  exact Nat.lt_of_le_of_lt (length_prefixScan_le _ _) hsize

/-- The two zeros. -/
def F64.POS_ZERO : F64 := ⟨0⟩

def F64.NEG_ZERO : F64 := ⟨0x8000000000000000⟩

/-- A sorted set is built with a repeated member, both zeros and an infinity, gets a score
changed, and loses a member; another key stays out of it. -/
def zsetHistory : List Event :=
  [.run (.keyed Key.k (.zadd [(⟨0xFFF0000000000000⟩, [120]), (F64.POS_ZERO, [121]), (F64.NEG_ZERO, [120])])),
    .run (.keyed Key.k (.zadd [(F64.POS_ZERO, [120]), (⟨0x7FF0000000000000⟩, [122])])),
    .run (.keyed Key.k (.zrem [[121], [121]]))]

theorem sortedSets_refine_zsetHistory : Steps ZSetStep (World.opened ∅ (stillClock 7 5)) zsetHistory ∧
    (∃ S score expireMs, S.Nonempty ∧
      ActsAsSortedSet ((World.opened ∅ (stillClock 7 5)).after zsetHistory) Key.k expireMs S score) ∧
    ActsAsSortedSet ((World.opened ∅ (stillClock 7 5)).after zsetHistory) Key.l 0 ∅ fun _ => none := by
  have hes : Steps ZSetStep (World.opened ∅ (stillClock 7 5)) zsetHistory :=
    ⟨zsetStep_of_check rfl (by simp only [Op.numeric]; decide +kernel) (by decide +kernel) (by decide +kernel),
      zsetStep_of_check rfl (by simp only [Op.numeric]; decide +kernel) (by decide +kernel) (by decide +kernel),
      zsetStep_of_check rfl trivial (by decide +kernel) (by decide +kernel), trivial⟩
  have hlive : (((World.opened ∅ (stillClock 7 5)).after zsetHistory).liveMeta Key.k.1).map Meta.typeId =
      some TYPE_ZSET := by decide +kernel
  obtain ⟨m, hm, ht⟩ := Option.map_eq_some_iff.mp hlive
  obtain ⟨S, score, hS, -, -, -, -, hacts⟩ :=
    (sortedSets_refine_finite_maps (stillClock 7 5) zsetHistory hes Key.k).1 m hm ht
  exact ⟨hes, ⟨S, score, m.expireMs, hS, hacts⟩,
    (sortedSets_refine_finite_maps (stillClock 7 5) zsetHistory hes Key.l).2 (by decide +kernel)⟩

end GameStore
