import GameStore.Readback

/-!
# Reading a live key

What the reads return on a key whose metadata is live, in terms of its records.
-/

namespace GameStore

open Lib Std

section Queries

variable {w : World} {k : Bytes} {m : Meta}

theorem run_exists_live (h : w.liveMeta k = some m) :
    ((KeyOp.exists.prog k).run exec w).1 = .ok (.bool true) := by
  obtain ⟨w', hload, -⟩ := run_loadLiveMeta_live h
  rw [KeyOp.prog, Prog.run_map, «exists», Prog.run_bind_ok _ hload]
  rfl

theorem run_hexists_live (h : w.liveMeta k = some m) (ht : m.typeId = TYPE_HASH)
    (f : Bytes) : (((KeyOp.hexists f).prog k).run exec w).1 =
      .ok (.bool w.disk[subkey k m.version f]?.isSome) := by
  obtain ⟨w', hload, hst, -⟩ := run_loadTyped_live h
  rw [ht] at hload
  have hd : w'.disk = w.disk := by rw [hst]
  rw [KeyOp.prog, Prog.run_map, hexists, hget, Prog.bind_assoc, Prog.run_bind_ok _ hload, ← hd]
  rfl

theorem run_sismember_live (h : w.liveMeta k = some m) (ht : m.typeId = TYPE_SET)
    (x : Bytes) : (((KeyOp.sismember x).prog k).run exec w).1 =
      .ok (.bool w.disk[subkey k m.version x]?.isSome) := by
  obtain ⟨w', hload, hst, -⟩ := run_loadTyped_live h
  rw [ht] at hload
  have hd : w'.disk = w.disk := by rw [hst]
  rw [KeyOp.prog, Prog.run_map, sismember, Prog.run_bind_ok _ hload, ← hd]
  rfl

theorem run_zscore_live (h : w.liveMeta k = some m) (ht : m.typeId = TYPE_ZSET)
    {x : Bytes} (hx : ∀ raw, w.disk[subkey k m.version x]? = some raw → raw.length = 8) :
    (((KeyOp.zscore x).prog k).run exec w).1 =
      .ok (.score (w.disk[subkey k m.version x]?.map decodeScore)) := by
  obtain ⟨w', hload, hst, -⟩ := run_loadTyped_live h
  rw [ht] at hload
  have hd : w'.disk = w.disk := by rw [hst]
  have hget : exec (.get (subkey k m.version x)) w' = (w.disk[subkey k m.version x]?, w') :=
    congrArg (fun d : Disk => (d[subkey k m.version x]?, w')) hd
  rw [KeyOp.prog, Prog.run_map, zscore, Prog.run_bind_ok _ hload]
  dsimp only
  rw [Prog.perform_bind, Prog.run_call, hget]
  cases hraw : w.disk[subkey k m.version x]? with
  | none => rfl
  | some raw =>
    dsimp only
    rw [decodeStoredScore, if_pos (hx raw hraw)]
    rfl

theorem run_smembers_live (h : w.liveMeta k = some m) (ht : m.typeId = TYPE_SET) :
    ((KeyOp.smembers.prog k).run exec w).1 = .ok (.values ((prefixScan w.disk
      (subkeyPrefix k m.version)).map fun item => item.1.drop (subkeyPrefix k m.version).length)) := by
  obtain ⟨w', hload, hst, -⟩ := run_loadTyped_live h
  rw [ht] at hload
  have hd : w'.disk = w.disk := by rw [hst]
  rw [KeyOp.prog, Prog.run_map, smembers, Prog.run_bind_ok _ hload, ← hd]
  rfl

theorem run_storedCount_live (h : w.liveMeta k = some m) :
    ((storedCount k m.typeId).run exec w).1 = .ok (m.fieldCount.toNat : ℤ) := by
  obtain ⟨w', hload, -⟩ := run_loadTyped_live h
  rw [storedCount, Prog.run_bind_ok _ hload]
  rfl

/-! ## Lists -/

theorem listLen_eq {head tail : UInt64} (hle : head ≤ tail) :
    listLen head tail = Int64.ofNat (tail.toNat - head.toNat) := by
  have hsub : tail - head = UInt64.ofNat (tail.toNat - head.toNat) := by
    rw [← UInt64.toNat_sub_of_le _ _ hle, UInt64.ofNat_toNat]
  rw [listLen, hsub]
  rfl

theorem run_lrange_loop (h : w.liveMeta k = some m) (ht : m.typeId = TYPE_LIST) {head tail : UInt64}
    (hb : m.listBounds = some (head, tail)) (hlt : head < tail)
    (hfit : tail.toNat - head.toNat < 2 ^ 63) : ∃ w', w'.disk = w.disk ∧
      (((KeyOp.lrange 0 (-1)).prog k).run exec w).1 =
        (((List.range' 0 (tail.toNat - head.toNat)).foldlM (fun out offset => do
          let value ← readElement k m.version (head + UInt64.ofNat offset)
          pure (out ++ [value])) []).run exec w').1.map Reply.values := by
  obtain ⟨w', hload, hst, -⟩ := run_loadTyped_live h
  rw [ht] at hload
  refine ⟨w', by rw [hst], ?_⟩
  obtain ⟨n, hn⟩ : ∃ n, tail.toNat - head.toNat = n + 1 :=
    ⟨tail.toNat - head.toNat - 1, by have := UInt64.lt_iff_toNat_lt.mp hlt; omega⟩
  rw [KeyOp.prog, Prog.run_map, lrange, Prog.run_bind_ok _ hload]
  dsimp only
  rw [hb]
  dsimp only
  rw [listLen_eq (UInt64.le_of_lt hlt), hn, normalizeRange_all (by omega)]
  rfl

/-- `LRANGE 0 -1` on a list whose elements are all there. -/
theorem run_lrange_live (h : w.liveMeta k = some m) (ht : m.typeId = TYPE_LIST) {head tail : UInt64}
    (hb : m.listBounds = some (head, tail)) (hlt : head < tail)
    (hfit : tail.toNat - head.toNat < 2 ^ 63) {f : ℕ → Bytes}
    (hf : ∀ o < tail.toNat - head.toNat, w.disk[elementKey k m.version (head + UInt64.ofNat o)]? =
      some (f o)) : (((KeyOp.lrange 0 (-1)).prog k).run exec w).1 =
      .ok (.values ((List.range' 0 (tail.toNat - head.toNat)).map f)) := by
  obtain ⟨w', hd, hrun⟩ := run_lrange_loop h ht hb hlt hfit
  rw [hrun, run_readElements head f]
  · rfl
  · intro o ho
    rw [hd]
    exact hf o (by simpa using (List.mem_range'_1.mp ho).2)

/-- A list whose first element is missing. -/
theorem run_lrange_missing (h : w.liveMeta k = some m) (ht : m.typeId = TYPE_LIST)
    {head tail : UInt64} (hb : m.listBounds = some (head, tail)) (hlt : head < tail)
    (hfit : tail.toNat - head.toNat < 2 ^ 63) (hmiss : w.disk[elementKey k m.version head]? = none) :
    (((KeyOp.lrange 0 (-1)).prog k).run exec w).1 =
      .error (.corruption "missing list element record") := by
  obtain ⟨w', hd, hrun⟩ := run_lrange_loop h ht hb hlt hfit
  obtain ⟨n, hn⟩ : ∃ n, tail.toNat - head.toNat = n + 1 :=
    ⟨tail.toNat - head.toNat - 1, by have := UInt64.lt_iff_toNat_lt.mp hlt; omega⟩
  have hget : exec (.get (elementKey k m.version (head + UInt64.ofNat 0))) w' = (none, w') := by
    refine congrArg (·, w') ?_
    rw [hd, show head + UInt64.ofNat 0 = head from UInt64.add_zero head]
    exact hmiss
  rw [hrun, hn, List.range'_succ, List.foldlM_cons, Prog.bind_assoc, readElement, Prog.perform_bind,
    Prog.call_bind, Prog.run_call, hget]
  rfl

end Queries

end GameStore
