import GameStore.Lib.Assoc
import GameStore.Garbage

/-!
# Loading, creating and reading a key

What the operations compute on a store they have for themselves.
-/

namespace GameStore

open Lib Std

theorem Cleared.disk_eq {k : Bytes} {st st' : Store} (h : Cleared k st st') :
    st'.disk = st.disk.erase (metaKey k) := by
  cases h with
  | missing h =>
    apply ExtTreeMap.ext_getElem?
    intro raw
    rw [getElem?_erase_bytes]
    split
    · rename_i hraw
      rw [← hraw, h]
    · rfl
  | dropped => rfl

theorem run_loadMeta {w : World} {k : Bytes} {m : Meta} (h : readMeta w.disk k = some m) :
    (loadMeta k).run exec w = (.ok (some m), w) := by
  obtain ⟨raw, hraw, hd⟩ := Option.bind_eq_some_iff.mp h
  have hget : exec (.get (metaKey k)) w = (some raw, w) := congrArg (·, w) hraw
  rw [loadMeta, Prog.perform_bind, Prog.run_call, hget]
  dsimp only
  rw [hd]
  rfl

theorem run_loadMeta_none {w : World} {k : Bytes} (h : w.disk[metaKey k]? = none) :
    (loadMeta k).run exec w = (.ok none, w) := by
  have hget : exec (.get (metaKey k)) w = (none, w) := congrArg (·, w) h
  rw [loadMeta, Prog.perform_bind, Prog.run_call, hget]
  rfl

theorem run_loadLiveMeta_absent {w : World} {k : Bytes} (h : w.Absent k) :
    ∃ w', (loadLiveMeta k).run exec w = (.ok none, w') ∧ Cleared k w.toStore w'.toStore ∧
      w'.micros = w.micros := by
  obtain h | ⟨m, hm, he, hn⟩ := h
  · refine ⟨w, ?_, .missing h, rfl⟩
    rw [loadLiveMeta, Prog.run_bind_ok _ (run_loadMeta_none h)]
    rfl
  · refine ⟨⟨{ w.toStore with
      disk := w.disk.erase (metaKey k), versions := w.versions.erase k }, ⟨w.ms.tail, w.micros⟩⟩,
      ?_, .dropped, rfl⟩
    rw [loadLiveMeta, Prog.run_bind_ok _ (run_loadMeta hm)]
    dsimp only
    rw [if_pos he, Prog.perform_bind, Prog.run_call]
    have hnow : exec .nowMs w = (w.ms.head, { w with ms := w.ms.tail }) := rfl
    rw [hnow]
    dsimp only
    rw [if_pos hn]
    rfl

theorem run_loadLiveMeta_live {w : World} {k : Bytes} {m : Meta} (h : w.liveMeta k = some m) :
    ∃ w', (loadLiveMeta k).run exec w = (.ok (some m), w') ∧ w'.toStore = w.toStore ∧
      w'.micros = w.micros := by
  have hm := readMeta_of_liveMeta h
  rw [loadLiveMeta, Prog.run_bind_ok _ (run_loadMeta hm)]
  dsimp only
  by_cases he : m.expireMs = 0
  · rw [if_neg (not_not.mpr he)]
    exact ⟨w, rfl, rfl, rfl⟩
  · have hn : ¬ m.expireMs ≤ w.ms.head := by simpa [World.liveMeta, hm, he] using h
    rw [if_pos he, Prog.perform_bind, Prog.run_call]
    have hnow : exec .nowMs w = (w.ms.head, { w with ms := w.ms.tail }) := rfl
    rw [hnow]
    dsimp only
    rw [if_neg hn]
    exact ⟨_, rfl, rfl, rfl⟩

theorem run_loadTyped_absent {w : World} {k : Bytes} (h : w.Absent k) (t : UInt8) :
    ∃ w', (loadTyped k t).run exec w = (.ok none, w') ∧ Cleared k w.toStore w'.toStore ∧
      w'.micros = w.micros := by
  obtain ⟨w', hrun, hw'⟩ := run_loadLiveMeta_absent h
  refine ⟨w', ?_, hw'⟩
  rw [loadTyped, Prog.run_bind_ok _ hrun]
  rfl

theorem run_loadTyped_live {w : World} {k : Bytes} {m : Meta} (h : w.liveMeta k = some m) :
    ∃ w', (loadTyped k m.typeId).run exec w = (.ok (some m), w') ∧ w'.toStore = w.toStore ∧
      w'.micros = w.micros := by
  obtain ⟨w', hrun, hw'⟩ := run_loadLiveMeta_live h
  refine ⟨w', ?_, hw'⟩
  rw [loadTyped, Prog.run_bind_ok _ hrun]
  dsimp only
  rw [if_pos rfl]
  rfl

/-- A key without a deadline is loaded without looking at the clock. -/
theorem run_loadTyped {w : World} {k : Bytes} {m : Meta} (h : readMeta w.disk k = some m)
    (he : m.expireMs = 0) : (loadTyped k m.typeId).run exec w = (.ok (some m), w) := by
  have hlive : (loadLiveMeta k).run exec w = (.ok (some m), w) := by
    rw [loadLiveMeta, Prog.run_bind_ok _ (run_loadMeta h)]
    dsimp only
    rw [if_neg (not_not.mpr he)]
    rfl
  rw [loadTyped, Prog.run_bind_ok _ hlive]
  dsimp only
  rw [if_pos rfl]
  rfl

/-- The metadata of a new key, before its payload. -/
def newMeta (t : UInt8) (v : UInt64) : Meta := { typeId := t, version := v, expireMs := 0, payload := [] }

theorem run_loadOrCreate_absent {w : World} {k : Bytes} (h : w.Absent k) (t : UInt8)
    (init : Meta → Meta) : ∃ w', (loadOrCreate k t init).run exec w =
        (.ok (init (newMeta t w.nextIssue)), w') ∧
      w'.disk = w.disk.erase (metaKey k) := by
  obtain ⟨w', hrun, hst, hc⟩ := run_loadTyped_absent h t
  have hissue : w'.nextIssue = w.nextIssue := nextIssue_congr hc hst.versionClock_eq
  refine ⟨(exec (.versionsSet k w'.nextIssue) (exec .nextVersion w').2).2, ?_, hst.disk_eq⟩
  rw [loadOrCreate, Prog.run_bind_ok _ hrun, ← hissue]
  rfl

theorem run_loadOrCreate_live {w : World} {k : Bytes} {m : Meta} (h : w.liveMeta k = some m)
    (init : Meta → Meta) : ∃ w', (loadOrCreate k m.typeId init).run exec w = (.ok m, w') ∧
      w'.toStore = w.toStore ∧ w'.micros = w.micros := by
  obtain ⟨w', hrun, hw'⟩ := run_loadTyped_live h
  refine ⟨w', ?_, hw'⟩
  rw [loadOrCreate, Prog.run_bind_ok _ hrun]
  rfl

/-! ## Hashes -/

/-- The puts of one `hset` call. -/
def fieldPuts (k : Bytes) (v : UInt64) (pairs : List (Bytes × Bytes)) : WriteBatch :=
  pairs.map fun p => .put (subkey k v p.1) p.2

/-- How many listed pairs name a field without a record, repetitions included. -/
def absentPairs (d : Disk) (k : Bytes) (v : UInt64) (pairs : List (Bytes × Bytes)) : ℕ :=
  pairs.countP fun p => d[subkey k v p.1]?.isNone

theorem run_hsetSteps (k : Bytes) (v : UInt64) (pairs : List (Bytes × Bytes)) (t : Tally) (w : World) :
    (pairs.foldlM (hsetStep k v) t).run exec w =
      (.ok ⟨t.count + UInt32.ofNat (absentPairs w.disk k v pairs),
        t.changed + absentPairs w.disk k v pairs, t.batch ++ fieldPuts k v pairs⟩, w) := by
  induction pairs generalizing t with
  | nil => simp [absentPairs, fieldPuts]
  | cons p pairs ih =>
    have hstep : (hsetStep k v t p).run exec w = (.ok (if w.disk[subkey k v p.1]?.isNone
        then t.add [.put (subkey k v p.1) p.2] else t.note [.put (subkey k v p.1) p.2]), w) := by
      have hget : exec (.get (subkey k v p.1)) w = (w.disk[subkey k v p.1]?, w) := rfl
      rw [hsetStep, Prog.perform_bind, Prog.run_call, hget]
      cases w.disk[subkey k v p.1]? <;> rfl
    rw [List.foldlM_cons, Prog.run_bind_ok _ hstep, ih]
    cases hd : w.disk[subkey k v p.1]? with
    | none =>
      simp only [absentPairs, fieldPuts, List.countP_cons, hd, Option.isNone_none, if_true, Tally.add,
        List.map_cons, List.append_assoc, List.singleton_append, Nat.cast_add, Nat.cast_one,
        UInt32.ofNat_add]
      congr 3
      · rw [UInt32.add_assoc, UInt32.add_comm 1]
        rfl
      · omega
    | some value =>
      simp only [absentPairs, fieldPuts, List.countP_cons, hd, Option.isNone_some, Bool.false_eq_true,
        if_false, Nat.add_zero, Tally.note, List.map_cons, List.append_assoc, List.singleton_append]

theorem run_hset {w w' : World} {k : Bytes} {m : Meta} (pairs : List (Bytes × Bytes))
    (h : (loadOrCreate k TYPE_HASH fun m => m.setFieldCount 0).run exec w = (.ok m, w')) :
    (hset k pairs).run exec w = (.ok (absentPairs w'.disk k m.version pairs),
      { w' with disk := applyBatch w'.disk (fieldPuts k m.version pairs ++ [.put (metaKey k)
        (m.setFieldCount (m.fieldCount +
          UInt32.ofNat (absentPairs w'.disk k m.version pairs))).encode]) }) := by
  rw [hset, Prog.run_bind_ok _ h, Prog.run_bind_ok _ (run_hsetSteps _ _ _ _ _)]
  simp only [Int.zero_add, List.nil_append]
  rfl

theorem mem_hgetall_scan {d : Disk} {k f value : Bytes} {v : UInt64} :
    (f, value) ∈ (prefixScan d (subkeyPrefix k v)).map
        (fun item => (item.1.drop (subkeyPrefix k v).length, item.2)) ↔
      d[subkey k v f]? = some value := by
  simp only [List.mem_map, Prod.exists, Prod.mk.injEq, mem_prefixScan]
  constructor
  · rintro ⟨raw, val, ⟨hraw, rest, rfl⟩, rfl, rfl⟩
    rw [List.drop_left]
    exact hraw
  · intro h
    exact ⟨subkey k v f, value, ⟨h, f, rfl⟩, List.drop_left, rfl⟩

theorem run_hgetall {w : World} {k : Bytes} {m : Meta} (h : readMeta w.disk k = some m)
    (he : m.expireMs = 0) (ht : m.typeId = TYPE_HASH) : (hgetall k).run exec w =
      (.ok ((prefixScan w.disk (subkeyPrefix k m.version)).map
        fun item => (item.1.drop (subkeyPrefix k m.version).length, item.2)), w) := by
  rw [hgetall, ← ht, Prog.run_bind_ok _ (run_loadTyped h he)]
  rfl

/-- Suffixes of records under one prefix are as different as the records. -/
theorem suffixes_nodup (d : Disk) (pre : Bytes) :
    ((prefixScan d pre).map fun item => item.1.drop pre.length).Nodup := by
  have hnd := prefixScan_keys_nodup d pre
  rw [List.Nodup, List.pairwise_map] at hnd ⊢
  refine hnd.imp_of_mem ?_
  rintro ⟨key, value⟩ ⟨key', value'⟩ hi hi' hne he
  obtain ⟨rest, rfl⟩ := (mem_prefixScan.mp hi).2
  obtain ⟨rest', rfl⟩ := (mem_prefixScan.mp hi').2
  apply hne
  simpa using he

theorem getElem?_fieldPuts (d : Disk) (k : Bytes) (v : UInt64) (pairs : List (Bytes × Bytes))
    (f : Bytes) : (applyBatch d (fieldPuts k v pairs))[subkey k v f]? =
      (pairs.reverse.lookup f).or d[subkey k v f]? := by
  induction pairs using List.reverseRecOn with
  | nil => rfl
  | append_singleton pairs p ih =>
    have hsplit : fieldPuts k v (pairs ++ [p]) =
        fieldPuts k v pairs ++ [.put (subkey k v p.1) p.2] := List.map_append
    rw [hsplit, getElem?_applyBatch_concat, ih, lookup_reverse_concat]
    simp only [WriteOp.key, WriteOp.value, subkey_inj]
    by_cases hf : p.1 = f
    · rw [if_pos hf, if_pos hf.symm, Option.some_or]
    · rw [if_neg hf, if_neg (Ne.symm hf)]

end GameStore
