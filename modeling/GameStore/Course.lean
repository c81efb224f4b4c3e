import GameStore.Session

/-!
# Where an undisturbed operation stands

`Stage k w₀ ph s` describes the state `s` of an operation on `k` that started
in `w₀`, is in phase `ph`, and had the store for itself.
-/

namespace GameStore

open Lib Std

/-- The metadata of a key, unless it has expired by the next clock reading. -/
def World.liveMeta (w : World) (k : Bytes) : Option Meta :=
  (readMeta w.disk k).filter fun m => m.expireMs = 0 || !decide (m.expireMs ≤ w.ms.head)

/-- The key is missing, or its deadline has passed at the next clock reading. -/
def World.Absent (w : World) (k : Bytes) : Prop :=
  w.disk[metaKey k]? = none ∨
    ∃ m, readMeta w.disk k = some m ∧ m.expireMs ≠ 0 ∧ m.expireMs ≤ w.ms.head

/-- A key found missing, or expired and dropped. -/
inductive Cleared (k : Bytes) (st : Store) : Store → Prop
  | missing (h : st.disk[metaKey k]? = none) : Cleared k st st
  | dropped : Cleared k st
      { st with disk := st.disk.erase (metaKey k), versions := st.versions.erase k }

/-- A live key deleted, with the records `recs` names; `versions` is the map now. -/
def Removed (k : Bytes) (w₀ : World) (versions : VersionMap) (st : Store) : Prop :=
  ∃ m recs, w₀.liveMeta k = some m ∧ Records k m.version recs ∧ (recs ≠ [] → m.composite) ∧
    st = { w₀.toStore with disk := (applyBatch w₀.disk recs).erase (metaKey k), versions := versions }

/-- What an operation that has written its metadata leaves. -/
inductive Finished (k : Bytes) (w₀ : World) : Store → Prop
  | updated {m m' : Meta} {recs : WriteBatch} (hlive : w₀.liveMeta k = some m)
      (hr : Records k m.version recs) (hm : recs ≠ [] → m.composite) (ht : m'.typeId = m.typeId)
      (hv : m'.version = m.version) : Finished k w₀
      { w₀.toStore with disk := applyBatch w₀.disk (recs ++ [.put (metaKey k) m'.encode]) }
  | created {m : Meta} {recs : WriteBatch} {st : Store} (hlive : w₀.liveMeta k = none)
      (hst : Cleared k w₀.toStore st) (hr : Records k m.version recs) (hm : m.composite)
      (hv : m.version = w₀.nextIssue) (he : m.expireMs = 0) : Finished k w₀
      { st with
        disk := applyBatch st.disk (recs ++ [.put (metaKey k) m.encode])
        versions := st.versions.insert k m.version, versionClock := m.version }
  | string {m : Meta} (hm : m.typeId = TYPE_STRING) : Finished k w₀
      { w₀.toStore with
        disk := applyBatch w₀.disk [.put (metaKey k) m.encode]
        versions := w₀.versions.erase k, versionClock := w₀.nextIssue }

def Stage (k : Bytes) (w₀ : World) : Phase → World → Prop
  | .start, s => s = w₀
  | .loaded m, s => s = w₀ ∧ readMeta w₀.disk k = some m ∧ m.expireMs ≠ 0
  | .live m, s => w₀.liveMeta k = some m ∧ s.micros = w₀.micros ∧ s.toStore = w₀.toStore
  | .expired m, s => readMeta w₀.disk k = some m ∧ w₀.Absent k ∧ s.micros = w₀.micros ∧
      s.toStore = w₀.toStore
  | .dropping .due, s => w₀.Absent k ∧ s.micros = w₀.micros ∧
      s.toStore = { w₀.toStore with disk := w₀.disk.erase (metaKey k) }
  | .dropping _, s => s.micros = w₀.micros ∧ Removed k w₀ w₀.versions s.toStore
  | .absent, s => w₀.Absent k ∧ s.micros = w₀.micros ∧ Cleared k w₀.toStore s.toStore
  | .issued v, s => w₀.Absent k ∧ v = w₀.nextIssue ∧
      ∃ st, Cleared k w₀.toStore st ∧ s.toStore = { st with versionClock := v }
  | .created v, s => w₀.Absent k ∧ v = w₀.nextIssue ∧ ∃ st, Cleared k w₀.toStore st ∧
      s.toStore = { st with versions := st.versions.insert k v, versionClock := v }
  | .overwriting, s => s = w₀
  | .untracked, s => s.micros = w₀.micros ∧
      s.toStore = { w₀.toStore with versions := w₀.versions.erase k }
  | .untrackedIssued v, s => v = w₀.nextIssue ∧
      s.toStore = { w₀.toStore with versions := w₀.versions.erase k, versionClock := v }
  | .emptying m, s => ∃ recs, w₀.liveMeta k = some m ∧ Records k m.version recs ∧ m.composite ∧
      s.micros = w₀.micros ∧ s.toStore = { w₀.toStore with disk := applyBatch w₀.disk recs }
  | .done, s => Finished k w₀ s.toStore ∧ (s.micros = w₀.micros ∨ s.versionClock = w₀.nextIssue)
  | .gone, s | .emptied, s => s.micros = w₀.micros ∧
      Removed k w₀ (w₀.versions.erase k) s.toStore

/-- If the key is about to be created, no record carries the version it will get. -/
def NewVersion (k : Bytes) (w : World) : Prop :=
  w.liveMeta k = none → ∀ raw, RecordOf k w.nextIssue raw → w.disk[raw]? = none

instance (k : Bytes) (w : World) : Decidable (NewVersion k w) :=
  decidable_of_iff (w.liveMeta k = none →
      ∀ r ∈ w.disk.toList, parseOwnerVersion r.1 ≠ some (k, w.nextIssue)) <| by
    refine forall_congr' fun _ => ⟨fun h raw hraw => ?_, fun h r hr hraw => ?_⟩
    · rw [Option.eq_none_iff_forall_ne_some]
      intro value hv
      exact h (raw, value) (ExtTreeMap.mem_toList_iff_getElem?_eq_some.mpr hv) hraw
    · have hv := ExtTreeMap.mem_toList_iff_getElem?_eq_some.mp hr
      rw [h r.1 hraw] at hv
      cases hv

theorem nextIssue_congr {w w' : World} (hc : w.micros = w'.micros)
    (hv : w.versionClock = w'.versionClock) : w.nextIssue = w'.nextIssue := by
  rw [World.nextIssue, World.nextIssue, hc, hv]

theorem Cleared.getElem?_metaKey {k : Bytes} {st st' : Store} (h : Cleared k st st') :
    st'.disk[metaKey k]? = none := by
  cases h with
  | missing h => exact h
  | dropped => rw [getElem?_erase_bytes, if_pos rfl]

theorem Cleared.getElem?_of_ne {k : Bytes} {st st' : Store} (h : Cleared k st st') {raw : Bytes}
    (hraw : raw ≠ metaKey k) : st'.disk[raw]? = st.disk[raw]? := by
  cases h with
  | missing h => rfl
  | dropped => rw [getElem?_erase_bytes, if_neg hraw.symm]

theorem Cleared.versionClock_eq {k : Bytes} {st st' : Store} (h : Cleared k st st') :
    st'.versionClock = st.versionClock := by
  cases h <;> rfl

theorem liveMeta_of_missing {w : World} {k : Bytes} (h : w.disk[metaKey k]? = none) :
    w.liveMeta k = none := by
  simp [World.liveMeta, readMeta, h]

theorem World.Absent.liveMeta_eq {w : World} {k : Bytes} (h : w.Absent k) : w.liveMeta k = none := by
  obtain h | ⟨m, hm, he, hn⟩ := h
  · exact liveMeta_of_missing h
  · simpa [World.liveMeta, hm, he] using hn

theorem readMeta_of_decode {w : World} {k raw : Bytes} {m : Meta} (h : w.disk[metaKey k]? = some raw)
    (hd : Meta.decode raw = some m) : readMeta w.disk k = some m := by
  rw [readMeta, h]
  exact hd

theorem stage_move {k : Bytes} {w₀ s : World} {ph ph' : Phase} {o : Call} {a : o.Ans}
    (hmove : Move k ph o a ph') (ha : a = (exec o s).1) (hs : Stage k w₀ ph s) :
    Stage k w₀ ph' (exec o s).2 := by
  cases hmove with
  | missing =>
    obtain rfl : s = w₀ := hs
    have hnone : s.disk[metaKey k]? = none := ha.symm
    exact ⟨.inl hnone, rfl, .missing hnone⟩
  | undecodable hd => exact hs
  | load hd he =>
    obtain rfl : s = w₀ := hs
    have hm := readMeta_of_decode (k := k) (h := ha.symm) hd
    exact ⟨by simp [World.liveMeta, hm, he], rfl, rfl⟩
  | loadDue hd he =>
    obtain rfl : s = w₀ := hs
    exact ⟨rfl, readMeta_of_decode ha.symm hd, he⟩
  | inTime hn =>
    obtain ⟨rfl, hm, he⟩ := hs
    subst ha
    have hn : ¬ _ ≤ s.ms.head := hn
    exact ⟨by simpa [World.liveMeta, hm, he] using hn, rfl, rfl⟩
  | due he hn =>
    obtain ⟨rfl, hm, -⟩ := hs
    subst ha
    have hn : _ ≤ s.ms.head := hn
    exact ⟨hm, .inr ⟨_, hm, he, hn⟩, rfl, rfl⟩
  | expire =>
    obtain ⟨hm, hl, hc, hst⟩ := hs
    exact ⟨hl, hc, by rw [← hst]; rfl⟩
  -- The tracked version goes last, when the metadata is deleted.
  | @drop why =>
    obtain ⟨st, clock⟩ := s
    cases why with
    | due =>
      obtain ⟨hl, hc, rfl⟩ := hs
      exact ⟨hl, hc, .dropped⟩
    | deleted =>
      obtain ⟨hc, m, recs, hl, hr, hm, rfl⟩ := hs
      exact ⟨hc, m, recs, hl, hr, hm, rfl⟩
    | emptied =>
      obtain ⟨hc, m, recs, hl, hr, hm, rfl⟩ := hs
      exact ⟨hc, m, recs, hl, hr, hm, rfl⟩
  | tick => exact hs
  | read hm hk => exact hs
  | scan hm hp => exact hs
  | update hr hm ht hv =>
    obtain ⟨st, clock⟩ := s
    obtain ⟨hl, hc, rfl⟩ := hs
    exact ⟨.updated hl hr hm ht hv, .inl hc⟩
  | delete =>
    obtain ⟨st, clock⟩ := s
    obtain ⟨hl, hc, rfl⟩ := hs
    exact ⟨hc, _, [], hl, Records.nil, fun h => absurd rfl h, rfl⟩
  | strip hr hm =>
    obtain ⟨st, clock⟩ := s
    obtain ⟨hl, hc, rfl⟩ := hs
    exact ⟨_, hl, hr, hm, hc, rfl⟩
  | deleteEmptied =>
    obtain ⟨st, clock⟩ := s
    obtain ⟨recs, hl, hr, hm, hc, rfl⟩ := hs
    exact ⟨hc, _, recs, hl, hr, fun _ => hm, rfl⟩
  | issue =>
    obtain ⟨hl, hc, hst⟩ := hs
    have hv := nextIssue_congr hc hst.versionClock_eq
    subst ha
    exact ⟨hl, hv, s.toStore, hst, rfl⟩
  | register =>
    obtain ⟨st, clock⟩ := s
    obtain ⟨hl, hv, st', hst, rfl⟩ := hs
    exact ⟨hl, hv, st', hst, rfl⟩
  | readNew hk => exact hs
  | writeNew hr hm hv he =>
    obtain ⟨st, clock⟩ := s
    obtain ⟨hl, hi, st', hst, rfl⟩ := hs
    subst hv
    exact ⟨.created hl.liveMeta_eq hst hr hm hi he, .inr hi⟩
  | untrack =>
    obtain rfl : s = w₀ := hs
    exact ⟨rfl, rfl⟩
  | issueString =>
    obtain ⟨st, clock⟩ := s
    obtain ⟨hc, rfl⟩ := hs
    subst ha
    have hv := nextIssue_congr (w := ⟨{ w₀.toStore with versions := w₀.versions.erase k }, clock⟩) hc rfl
    exact ⟨hv, rfl⟩
  | writeString hm =>
    obtain ⟨st, clock⟩ := s
    obtain ⟨rfl, rfl⟩ := hs
    exact ⟨.string hm, .inr rfl⟩

theorem stage_sound (k : Bytes) (w₀ : World) :
    Prog.Sound exec (Possible (NewVersion k w₀) k) (Move k) (Stage k w₀) where
  answers := by
    intro ph s o hs
    cases o with
    | get key =>
      rintro v rfl hnew hk
      obtain ⟨hl, rfl, st, hst, hs⟩ := hs
      have hdisk : s.disk = st.disk := by rw [hs]
      change s.disk[key]? = none
      rw [hdisk, hst.getElem?_of_ne (hk.ne_metaKey k)]
      exact hnew hl.liveMeta_eq key hk
    | _ => trivial
  keeps _ _ _ _ hs hmove := stage_move hmove rfl hs

theorem KeyOp.stage_begins (k : Bytes) (op : KeyOp) (w : World) : Stage k w op.begins w := by
  cases op <;> rfl

/-- An operation run to its end stops in a phase in which it may return. -/
theorem KeyOp.run_stage (k : Key) (op : KeyOp) (w : World) :
    ∃ ph : Phase, ph.settled (op.allowed (NewVersion k.1 w)) ∧
      Stage k.1 w ph ((op.prog k.1).run exec w).2 :=
  (KeyOp.obeys k.2 op).run (stage_sound k.1 w) (op.stage_begins k.1 w)

/-! ## The operations on the whole store -/

theorem getElem?_deleteAll (d : Disk) (items : List (Bytes × Bytes)) (raw : Bytes) :
    (applyBatch d (items.map fun item => .delete item.1))[raw]? =
      if raw ∈ items.map Prod.fst then none else d[raw]? := by
  induction items using List.reverseRecOn with
  | nil => simp
  | append_singleton items item ih =>
    rw [List.map_append, List.map_singleton, getElem?_applyBatch_concat, ih]
    simp only [WriteOp.key, WriteOp.value, List.map_append, List.map_singleton, List.mem_append,
      List.mem_singleton, eq_comm (a := item.1)]
    by_cases h : raw = item.1
    · simp [h]
    · simp only [h, if_false, or_false]

theorem mem_map_fst_prefixScan {d : Disk} {pre raw : Bytes} :
    raw ∈ (prefixScan d pre).map Prod.fst ↔ raw ∈ d ∧ pre <+: raw := by
  rw [List.mem_map, ExtTreeMap.mem_iff_isSome_getElem?, Option.isSome_iff_exists]
  constructor
  · rintro ⟨⟨key, value⟩, hm, rfl⟩
    obtain ⟨hv, hp⟩ := mem_prefixScan.mp hm
    exact ⟨⟨value, hv⟩, hp⟩
  · rintro ⟨⟨value, hv⟩, hp⟩
    exact ⟨(raw, value), mem_prefixScan.mpr ⟨hv, hp⟩, rfl⟩

/-- A key of one of the three families. -/
def Stored (raw : Bytes) : Prop :=
  [META_PREFIX] <+: raw ∨ [SUBKEY_PREFIX] <+: raw ∨ [ZSCORE_PREFIX] <+: raw

instance : DecidablePred Stored := fun _ => inferInstanceAs (Decidable (_ ∨ _ ∨ _))

def flushed (d : Disk) : Disk :=
  applyBatch d ((prefixScan d [META_PREFIX] ++ prefixScan d [SUBKEY_PREFIX] ++
    prefixScan d [ZSCORE_PREFIX]).map fun item => .delete item.1)

theorem run_flushAll (w : World) :
    flushAll.run exec w = (.ok (), { w with disk := flushed w.disk, versions := ∅ }) := rfl

theorem getElem?_flushed (d : Disk) (raw : Bytes) :
    (flushed d)[raw]? = if Stored raw then none else d[raw]? := by
  have hmem : raw ∈ (prefixScan d [META_PREFIX] ++ prefixScan d [SUBKEY_PREFIX] ++
      prefixScan d [ZSCORE_PREFIX]).map Prod.fst ↔ raw ∈ d ∧ Stored raw := by
    simp only [List.map_append, List.mem_append, mem_map_fst_prefixScan, Stored]
    tauto
  rw [flushed, getElem?_deleteAll]
  by_cases hs : Stored raw
  · by_cases hraw : raw ∈ d
    · rw [if_pos (hmem.mpr ⟨hraw, hs⟩), if_pos hs]
    · rw [if_neg fun h => hraw (hmem.mp h).1, if_pos hs, ExtTreeMap.getElem?_eq_none hraw]
  · rw [if_neg fun h => hs (hmem.mp h).2, if_neg hs]

end GameStore
