import GameStore.Course

/-!
# The version map against the disk

Two relations between a key's map entry and the version of its metadata matter:
they are equal (`Exact`), or the entry is right whenever the metadata is composite
(`Agrees`). An operation that finishes keeps both, so the lemmas here are stated
for any reflexive relation between the two.
-/

namespace GameStore

open Lib Std

/-- `P` holds between every key's map entry and the version its metadata gives. -/
def Store.Tied (P : Option UInt64 → Option UInt64 → Prop) (st : Store) : Prop :=
  ∀ k, P st.versions[k]? (diskVersion st.disk k)

/-- The map holds exactly the versions of the composite keys on disk. -/
def Store.Exact (st : Store) : Prop := st.Tied Eq

/-- Every composite key on disk has its version in the map. -/
def Store.Agrees (st : Store) : Prop := st.Tied fun entry version => ∀ v, version = some v → entry = some v

theorem readMeta_of_liveMeta {w : World} {k : Bytes} {m : Meta} (h : w.liveMeta k = some m) :
    readMeta w.disk k = some m := (Option.filter_eq_some_iff.mp h).1

theorem diskVersion_of_liveMeta {w : World} {k : Bytes} {m : Meta} (h : w.liveMeta k = some m) :
    diskVersion w.disk k = if m.composite then some m.version else none := by
  rw [diskVersion, readMeta_of_liveMeta h]
  rfl

theorem diskVersion_of_missing {d : Disk} {k : Bytes} (h : d[metaKey k]? = none) :
    diskVersion d k = none := by
  rw [diskVersion, readMeta, h]
  rfl

section Tied

variable {P : Option UInt64 → Option UInt64 → Prop} {k : Bytes}

theorem Cleared.tied (hP : ∀ a, P a a) {st st' : Store} (h : Cleared k st st') (hst : st.Tied P) :
    st'.Tied P := by
  cases h with
  | missing h => exact hst
  | dropped =>
    intro k'
    simp only [getElem?_erase_bytes, diskVersion_erase]
    split
    · exact hP _
    · exact hst k'

theorem Finished.tied (hP : ∀ a, P a a) {w : World} {st : Store} (h : Finished k w st)
    (hw : w.Tied P) : st.Tied P := by
  intro k'
  cases h with
  | updated hlive hr hm ht hv =>
    simp only [diskVersion_putMeta hr]
    split
    · rename_i hk
      have hc : _ = _ := diskVersion_of_liveMeta hlive
      have hw := hw k
      rw [hc] at hw
      rw [← hk, Meta.composite, ht, hv]
      exact hw
    · exact hw k'
  | created hlive hst hr hm hv he =>
    simp only [diskVersion_putMeta hr, getElem?_insert_bytes, if_pos hm]
    split
    · exact hP _
    · exact hst.tied hP hw k'
  | string hm =>
    simp only [diskVersion_put, getElem?_erase_bytes]
    split
    · simp only [Meta.composite, hm]
      exact hP _
    · exact hw k'

theorem Removed.tied (hP : ∀ a, P a a) {w : World} {st : Store}
    (h : Removed k w (w.versions.erase k) st) (hw : w.Tied P) : st.Tied P := by
  obtain ⟨m, recs, -, hr, -, rfl⟩ := h
  intro k'
  simp only [diskVersion_eraseMeta hr, getElem?_erase_bytes]
  split
  · exact hP _
  · exact hw k'

end Tied

/-- A key that is settled and has no version registered ahead of its metadata. -/
theorem Stage.exact {k : Bytes} {w s : World} {ph : Phase} {al : Allowed} (h : Stage k w ph s)
    (hleaves : ¬ al.leaves) (hph : ph.settled al) (hw : w.Exact) : s.Exact := by
  cases ph with
  | start => exact (show s = w from h) ▸ hw
  | live m =>
    rw [h.2.2]
    exact hw
  | absent => exact h.2.2.tied (fun _ => rfl) hw
  | done => exact h.1.tied (fun _ => rfl) hw
  | gone => exact h.2.tied (fun _ => rfl) hw
  | emptied => exact h.2.tied (fun _ => rfl) hw
  | created v => exact absurd hph hleaves
  | _ => exact hph.elim

/-! ## Flushing and compacting -/

theorem diskVersion_flushed (d : Disk) (k : Bytes) : diskVersion (flushed d) k = none := by
  apply diskVersion_of_missing
  rw [getElem?_flushed, if_pos (.inl ⟨k, rfl⟩)]

theorem Store.filterKeeps_metaKey (st : Store) (k : Bytes) : st.filterKeeps (metaKey k) = true := by
  simp [Store.filterKeeps, shouldKeep]

theorem getElem?_compact_metaKey (sel : Bytes → Bool) (st : Store) (k : Bytes) :
    (st.compact sel).disk[metaKey k]? = st.disk[metaKey k]? := by
  rw [getElem?_compact, st.filterKeeps_metaKey]
  simp

theorem diskVersion_compact (sel : Bytes → Bool) (st : Store) (k : Bytes) :
    diskVersion (st.compact sel).disk k = diskVersion st.disk k :=
  diskVersion_congr (getElem?_compact_metaKey sel st k)

/-- `sadd` and `zadd` write nothing when they find every listed element there. -/
def KeyOp.mayWriteNothing : KeyOp → Bool
  | .sadd _ | .zadd _ => true
  | _ => false

/-- The steps the characterisation of the garbage rests on: operations as the
command layer calls them, of which `sadd` and `zadd` never create a key with a
version that a record of it still carries. -/
def ReusesNothing (w : World) : Event → Prop
  | .run (.keyed key op) => op.wellCalled ∧ (op.mayWriteNothing → NewVersion key.1 w)
  | .run _ => True
  | .failing _ _ => False
  | .restart _ => True

instance (w : World) : (e : Event) → Decidable (ReusesNothing w e)
  | .run (.keyed key op) =>
    inferInstanceAs (Decidable (op.wellCalled ∧ (op.mayWriteNothing → NewVersion key.1 w)))
  | .run .dbsize | .run .rawSubkeyCount | .run .compact | .run .flushAll | .restart _ =>
    inferInstanceAs (Decidable True)
  | .failing _ _ => inferInstanceAs (Decidable False)

theorem KeyOp.not_leaves {fresh : Prop} {op : KeyOp} (hop : op.wellCalled)
    (hf : op.mayWriteNothing → fresh) : ¬ (op.allowed fresh).leaves := by
  cases op with
  | sadd members => exact not_not.mpr ⟨hf rfl, by simpa [KeyOp.wellCalled] using hop⟩
  | zadd pairs => exact not_not.mpr ⟨hf rfl, by simpa [KeyOp.wellCalled] using hop⟩
  | _ => exact id

theorem exact_opened (d : Disk) (clock : Clock) : (World.opened d clock).Exact := by
  intro k
  rw [opened_eq]
  exact getElem?_diskVersions d k

theorem exact_step {w : World} {e : Event} (he : ReusesNothing w e) (hw : w.Exact) :
    (e.apply w).Exact := by
  cases e with
  | failing op n => exact he.elim
  | restart clock => exact exact_opened _ _
  | run op =>
    cases op with
    | keyed key op =>
      obtain ⟨ph, hph, hs⟩ := op.run_stage key w
      exact hs.exact (KeyOp.not_leaves he.1 he.2) hph hw
    | dbsize => exact hw
    | rawSubkeyCount => exact hw
    | compact =>
      intro k
      exact (hw k).trans (diskVersion_compact _ w.toStore k).symm
    | flushAll =>
      intro k
      exact (diskVersion_flushed w.disk k).symm

theorem gcInstalled_step {w : World} {e : Event} (he : ReusesNothing w e)
    (hw : w.gcInstalled = true) : (e.apply w).gcInstalled = true := by
  cases e with
  | failing op n => exact he.elim
  | restart clock =>
    rw [Event.apply, opened_eq]
  | run op => exact gcInstalled_run op.prog hw

/-! ## What a compaction takes -/

/-- A versioned record that is not of its owner's current composite version. -/
def Stale (d : Disk) (raw : Bytes) : Prop := ∃ k v, RecordOf k v raw ∧ diskVersion d k ≠ some v

theorem shouldKeep_eq_false {st : Store} (h : st.Exact) (raw : Bytes) :
    shouldKeep st.versions raw = false ↔ Stale st.disk raw := by
  rw [← Bool.not_eq_true, shouldKeep_eq_true]
  simp only [Stale, RecordOf, h _]
  push Not
  rfl

theorem getElem?_fullCompaction {st : Store} (h : st.Exact) (hgc : st.gcInstalled = true)
    (raw value : Bytes) : (st.compact fun _ => true).disk[raw]? = some value ↔
      st.disk[raw]? = some value ∧ ¬ Stale st.disk raw := by
  rw [getElem?_compact, ← shouldKeep_eq_false h, Store.filterKeeps, hgc]
  cases shouldKeep st.versions raw <;> simp

/-- The map is the one the disk determines, the records it lets go are the stale
ones, and a full compaction takes these and nothing else. -/
structure GarbageExact (w : World) : Prop where
  versions : ∀ k, w.versions[k]? = diskVersion w.disk k
  rebuilt : (rebuildVersionMap.run exec w).2.versions = w.versions
  collectable : ∀ raw, raw ∈ w.disk → (shouldKeep w.versions raw = false ↔ Stale w.disk raw)
  compacted : ∀ raw value, (Op.compact.run w).2.disk[raw]? = some value ↔
    w.disk[raw]? = some value ∧ ¬ Stale w.disk raw

theorem garbageExact_of_exact {w : World} (h : w.Exact) (hgc : w.gcInstalled = true) :
    GarbageExact w where
  versions := h
  rebuilt := by
    rw [run_rebuildVersionMap]
    apply ExtTreeMap.ext_getElem?
    intro k
    exact (getElem?_diskVersions w.disk k).trans (h k).symm
  collectable raw _ := shouldKeep_eq_false h raw
  compacted := getElem?_fullCompaction h hgc

/-- Whatever was on disk, and however the process was restarted in between. -/
theorem garbage_exact_of_new_versions (d : Disk) (clock : Clock) (es : List Event)
    (hes : Steps ReusesNothing (World.opened d clock) es) :
    GarbageExact ((World.opened d clock).after es) := by
  have hinv := hes.induction (I := fun w => w.Exact ∧ w.gcInstalled = true)
    (fun w e he hw => ⟨exact_step he hw.1, gcInstalled_step he hw.2⟩)
    ⟨exact_opened d clock, by rw [opened_eq]⟩
  exact garbageExact_of_exact hinv.1 hinv.2

/-- A clock that stands still. -/
def stillClock (ms micros : UInt64) : Clock := ⟨fun _ => ms, fun _ => micros⟩

/-- A set is built, deleted and, after a restart, built again at a later time. -/
def rebuiltLater : List Event :=
  [.run (.keyed Key.k (.sadd [[120]])), .run (.keyed Key.k .del),
    .restart (stillClock 7 9), .run (.keyed Key.k (.sadd [[120], [121]]))]

theorem garbage_exact_rebuiltLater :
    Steps ReusesNothing (World.opened ∅ (stillClock 7 5)) rebuiltLater ∧
      GarbageExact ((World.opened ∅ (stillClock 7 5)).after rebuiltLater) := by
  have h : Steps ReusesNothing (World.opened ∅ (stillClock 7 5)) rebuiltLater := by decide +kernel
  exact ⟨h, garbage_exact_of_new_versions ∅ (stillClock 7 5) rebuiltLater h⟩

/-- The same with the clock set back across the restart. The old member's record
is taken for the new one's, nothing is written, and the map holds a version that
no metadata has. -/
theorem garbage_not_exact_after_clock_step_back :
    ¬ GarbageExact ((World.opened ∅ (stillClock 7 5)).after
      [.run (.keyed Key.k (.sadd [[120]])), .run (.keyed Key.k .del),
        .restart (stillClock 7 5), .run (.keyed Key.k (.sadd [[120]]))]) := by
  intro h
  exact absurd (h.versions [107]) (by decide +kernel)

end GameStore
