import GameStore.Garbage

/-!
# Opening a store while it is being compacted

`with_engine` installs the filter first and fills the map afterwards, entry by
entry. `Schedule` says what the background compactions get to see meanwhile.
-/

namespace GameStore

open Lib Std

/-- The records compacted before each call, and after the last one. -/
abbrev Schedule := Stream' (Bytes → Bool)

def Schedule.env (sel : Schedule) : Stream' (World → World) := sel.map World.compact

/-- The disk when `with_engine` returns. -/
def diskAfterOpening (d : Disk) (clock : Clock) (sel : Schedule) : Disk :=
  (withEngine.runEnv exec sel.env (World.boot d clock)).2.disk

/-- What survives while the entries `es` are set, one call each. -/
theorem getElem?_runEnv_setEntries (es : List (Bytes × UInt64)) (sel : Schedule) {w : World}
    (hgc : w.gcInstalled = true) (raw value : Bytes) :
    ((es.foldlM (fun _ e => versionsSet e.1 e.2) ()).runEnv exec sel.env w).2.disk[raw]? =
        some value ↔
      w.disk[raw]? = some value ∧ ∀ i ≤ es.length, sel.get i raw →
        shouldKeep (setEntries w.versions (es.take i)) raw = true := by
  induction es generalizing sel w with
  | nil =>
    change (w.toStore.compact (sel.get 0)).disk[raw]? = some value ↔ _
    rw [getElem?_compact_eq_some]
    simp [setEntries, Store.filterKeeps, hgc]
  | cons e es ih =>
    let w' : World := { w.compact sel.head with versions := w.versions.insert e.1 e.2 }
    change ((es.foldlM (fun _ e => versionsSet e.1 e.2) ()).runEnv exec
      (Schedule.env sel.tail) w').2.disk[raw]? = some value ↔ _
    have hkeep : w.filterKeeps raw = shouldKeep w.versions raw := by simp [Store.filterKeeps, hgc]
    have hw' : w'.disk[raw]? = some value ↔
        w.disk[raw]? = some value ∧ (sel.get 0 raw → shouldKeep w.versions raw = true) := by
      rw [← hkeep]
      exact getElem?_compact_eq_some
    rw [ih sel.tail (w := w') hgc, hw', and_assoc]
    apply and_congr_right
    intro _
    constructor
    · rintro ⟨h0, hs⟩ (_ | i) hi
      · exact h0
      · exact hs i (Nat.le_of_succ_le_succ hi)
    · intro h
      exact ⟨h 0 (Nat.zero_le _), fun i hi => h (i + 1) (Nat.succ_le_succ hi)⟩

theorem getElem?_diskAfterOpening (d : Disk) (clock : Clock) (sel : Schedule) (raw value : Bytes) :
    (diskAfterOpening d clock sel)[raw]? = some value ↔ d[raw]? = some value ∧
      ∀ i, 0 < i → i ≤ (entries d).length + 3 → sel.get i raw →
        shouldKeep (setEntries ∅ ((entries d).take (i - 3))) raw = true := by
  -- Before `install_gc`, before `clear` and before the scan.
  let w₁ : World := { (World.boot d clock).compact (sel.get 0) with gcInstalled := true }
  let w₂ : World := { w₁.compact (sel.get 1) with versions := ∅ }
  let w₃ : World := w₂.compact (sel.get 2)
  have h₁ : w₁.disk[raw]? = some value ↔ d[raw]? = some value := by
    refine getElem?_compact_eq_some.trans ?_
    simp [Store.filterKeeps, World.boot]
  have h₂ : w₂.disk[raw]? = some value ↔
      d[raw]? = some value ∧ (sel.get 1 raw → shouldKeep ∅ raw = true) := by
    rw [← h₁]
    exact getElem?_compact_eq_some
  have h₃ : w₃.disk[raw]? = some value ↔ (d[raw]? = some value ∧
      (sel.get 1 raw → shouldKeep ∅ raw = true)) ∧ (sel.get 2 raw → shouldKeep ∅ raw = true) := by
    rw [← h₂]
    exact getElem?_compact_eq_some
  have hscan : prefixScan w₃.disk [META_PREFIX] = prefixScan d [META_PREFIX] := by
    apply prefixScan_congr
    rintro _ ⟨k, rfl⟩
    exact (getElem?_compact_metaKey _ w₂.toStore k).trans ((getElem?_compact_metaKey _ w₁.toStore k).trans
      (getElem?_compact_metaKey _ (World.boot d clock).toStore k))
  have hopen : diskAfterOpening d clock sel =
      (((entries d).foldlM (fun _ e => versionsSet e.1 e.2) ()).runEnv exec
        (Schedule.env (sel.drop 3)) w₃).2.disk := by
    have hmeta : ∀ item ∈ prefixScan d [META_PREFIX], [META_PREFIX] <+: item.1 :=
      fun item hi => (mem_prefixScan.mp hi).2
    rw [entries, ← rebuildSteps_eq hmeta, ← hscan]
    rfl
  rw [hopen, getElem?_runEnv_setEntries _ _ rfl, h₃, and_assoc, and_assoc]
  apply and_congr_right
  intro _
  constructor
  · rintro ⟨hs₁, hs₂, hs⟩ i hi hle
    obtain rfl | rfl | ⟨j, rfl⟩ : i = 1 ∨ i = 2 ∨ ∃ j, i = j + 3 := by
      obtain h₁ | h₂ | h₃ : i = 1 ∨ i = 2 ∨ 3 ≤ i := by omega
      · exact .inl h₁
      · exact .inr (.inl h₂)
      · exact .inr (.inr ⟨i - 3, by omega⟩)
    · exact hs₁
    · exact hs₂
    · exact hs j (by omega)
  · intro h
    refine ⟨h 1 (by omega) (by omega), h 2 (by omega) (by omega), fun i hi hsel => ?_⟩
    exact h (i + 3) (by omega) (by omega) hsel

theorem shouldKeep_setEntries {es : List (Bytes × UInt64)} (hnd : (es.map Prod.fst).Nodup)
    {k raw : Bytes} {v : UInt64} (hraw : RecordOf k v raw) :
    shouldKeep (setEntries ∅ es) raw = true ↔ (k, v) ∈ es := by
  rw [shouldKeep_eq_true, ← getElem?_setEntries hnd]
  constructor
  · intro h
    exact h k v hraw
  · intro h k' v' hraw'
    obtain ⟨rfl, rfl⟩ : k = k' ∧ v = v' := by simpa using hraw.symm.trans hraw'
    exact h

/-- Every record of a composite key's current version is still there. -/
def KeepsLive (d d' : Disk) : Prop :=
  ∀ k v raw value, diskVersion d k = some v → RecordOf k v raw → d[raw]? = some value →
    d'[raw]? = some value

/-- From `install_gc` on, no compaction sees a live record before the rebuild has
set its owner's entry: the call before gap `i` is the `i - 3`rd entry. -/
def CompactsOnlyRegistered (d : Disk) (sel : Schedule) : Prop :=
  ∀ i, 0 < i → ∀ k v raw, diskVersion d k = some v → RecordOf k v raw → raw ∈ d →
    sel.get i raw → (k, v) ∈ (entries d).take (i - 3)

theorem opening_keeps_live_iff (d : Disk) (clock : Clock) (sel : Schedule) :
    KeepsLive d (diskAfterOpening d clock sel) ↔ CompactsOnlyRegistered d sel := by
  have hnd : ∀ n, (((entries d).take n).map Prod.fst).Nodup := fun n =>
    (entries_keys_nodup d).sublist ((List.take_sublist n _).map Prod.fst)
  constructor
  · intro h i hi k v raw hv hraw hmem hsel
    obtain ⟨value, hvalue⟩ := Option.isSome_iff_exists.mp (ExtTreeMap.mem_iff_isSome_getElem?.mp hmem)
    have hkept := ((getElem?_diskAfterOpening d clock sel raw value).mp (h k v raw value hv hraw hvalue)).2
    by_cases hle : i ≤ (entries d).length + 3
    · exact (shouldKeep_setEntries (hnd _) hraw).mp (hkept i hi hle hsel)
    · -- Past the last call everything is registered.
      rw [List.take_of_length_le (by omega)]
      exact mem_entries.mpr hv
  · intro h k v raw value hv hraw hvalue
    refine (getElem?_diskAfterOpening d clock sel raw value).mpr ⟨hvalue, fun i hi _ hsel => ?_⟩
    refine (shouldKeep_setEntries (hnd _) hraw).mpr (h i hi k v raw hv hraw ?_ hsel)
    rw [ExtTreeMap.mem_iff_isSome_getElem?, hvalue]
    rfl

/-- A hash of one field; everything is compacted right after `install_gc`. -/
theorem opening_loses_live_to_early_compaction :
    ¬ KeepsLive
      ((World.opened ∅ (stillClock 7 5)).after
        [.run (.keyed Key.k (.hset [([102], [118])]))]).disk
      (diskAfterOpening ((World.opened ∅ (stillClock 7 5)).after
        [.run (.keyed Key.k (.hset [([102], [118])]))]).disk (stillClock 8 6)
        fun i _ => i == 1) := by
  intro h
  have hraw : RecordOf [107] 5 (subkey [107] 5 [102]) := parseOwnerVersion_subkey (by decide) 5 [102]
  exact absurd (h [107] 5 _ [118] (by decide +kernel) hraw (by decide +kernel)) (by decide +kernel)

end GameStore
