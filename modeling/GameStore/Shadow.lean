import GameStore.Opening
import GameStore.Failure
import GameStore.Versions

/-!
# A store and its compacted copy

`Shadow s t` says that what `t` lacks of `s` the filter lets go. The calls of the
store keep it, as long as a version is registered only when no record has it.
-/

namespace GameStore

open Lib Std

/-- `t` is `s` less some records the filter lets go. -/
structure Shadow (s t : World) : Prop where
  versions : t.versions = s.versions
  versionClock : t.versionClock = s.versionClock
  clock : t.toClock = s.toClock
  installed : s.gcInstalled = true ∧ t.gcInstalled = true
  disk : ∀ raw, t.disk[raw]? = s.disk[raw]? ∨ t.disk[raw]? = none ∧ shouldKeep s.versions raw = false

theorem Shadow.getElem?_kept {s t : World} (h : Shadow s t) {raw : Bytes}
    (hraw : shouldKeep s.versions raw = true) : t.disk[raw]? = s.disk[raw]? := by
  refine (h.disk raw).resolve_right fun hd => ?_
  rw [hraw] at hd
  cases hd.2

theorem Shadow.getElem?_none {s t : World} (h : Shadow s t) {raw : Bytes} (hraw : s.disk[raw]? = none) :
    t.disk[raw]? = none := (h.disk raw).elim (fun he => he.trans hraw) And.left

theorem Shadow.compact {s t : World} (h : Shadow s t) (sel : Bytes → Bool) :
    Shadow s (t.compact sel) where
  versions := h.versions
  versionClock := h.versionClock
  clock := h.clock
  installed := h.installed
  disk raw := by
    have hget : (t.compact sel).disk[raw]? =
        if sel raw && !t.filterKeeps raw then none else t.disk[raw]? := getElem?_compact sel t.toStore raw
    have hkeep : t.filterKeeps raw = shouldKeep s.versions raw := by
      simp [Store.filterKeeps, h.installed, h.versions]
    rw [hget, hkeep]
    split
    · rename_i hsel
      exact .inr ⟨rfl, by simpa using (Bool.and_eq_true_iff.mp hsel).2⟩
    · exact h.disk raw

theorem Shadow.write {s t : World} (h : Shadow s t) (b : WriteBatch) :
    Shadow (exec (.write b) s).2 (exec (.write b) t).2 where
  versions := h.versions
  versionClock := h.versionClock
  clock := h.clock
  installed := h.installed
  disk raw := by
    change (applyBatch t.disk b)[raw]? = (applyBatch s.disk b)[raw]? ∨
      (applyBatch t.disk b)[raw]? = none ∧ shouldKeep s.versions raw = false
    induction b using List.reverseRecOn with
    | nil => exact h.disk raw
    | append_singleton b op ih =>
      rw [getElem?_applyBatch_concat, getElem?_applyBatch_concat]
      split
      · exact .inl rfl
      · exact ih

theorem Shadow.nowMs {s t : World} (h : Shadow s t) : Shadow (exec .nowMs s).2 (exec .nowMs t).2 where
  versions := h.versions
  versionClock := h.versionClock
  clock := by
    change Clock.mk t.ms.tail t.micros = Clock.mk s.ms.tail s.micros
    rw [h.clock]
  installed := h.installed
  disk := h.disk

theorem Shadow.nextIssue_eq {s t : World} (h : Shadow s t) : t.nextIssue = s.nextIssue :=
  nextIssue_congr (by rw [h.clock]) h.versionClock

theorem Shadow.nextVersion {s t : World} (h : Shadow s t) :
    Shadow (exec .nextVersion s).2 (exec .nextVersion t).2 where
  versions := h.versions
  versionClock := h.nextIssue_eq
  clock := by
    change Clock.mk t.ms t.micros.tail = Clock.mk s.ms s.micros.tail
    rw [h.clock]
  installed := h.installed
  disk := h.disk

theorem Shadow.versionsRemove {s t : World} (h : Shadow s t) (k : Bytes) :
    Shadow (exec (.versionsRemove k) s).2 (exec (.versionsRemove k) t).2 where
  versions := congrArg (ExtTreeMap.erase · k) h.versions
  versionClock := h.versionClock
  clock := h.clock
  installed := h.installed
  disk raw := by
    refine (h.disk raw).imp id fun hd => ⟨hd.1, ?_⟩
    rw [← Bool.not_eq_true, shouldKeep_eq_true] at hd ⊢
    refine fun hk => hd.2 fun k' v hraw => ?_
    have := hk k' v hraw
    change (s.versions.erase k)[k']? = some v at this
    rw [getElem?_erase_bytes] at this
    split at this
    · cases this
    · exact this

/-- Registering a version none of whose records are there. -/
theorem Shadow.versionsSet {s t : World} (h : Shadow s t) {k : Bytes} {v : UInt64}
    (hnew : ∀ raw, RecordOf k v raw → s.disk[raw]? = none) :
    Shadow (exec (.versionsSet k v) s).2 (exec (.versionsSet k v) t).2 where
  versions := congrArg (ExtTreeMap.insert · k v) h.versions
  versionClock := h.versionClock
  clock := h.clock
  installed := h.installed
  disk raw := by
    change t.disk[raw]? = s.disk[raw]? ∨
      t.disk[raw]? = none ∧ shouldKeep (s.versions.insert k v) raw = false
    obtain he | ⟨hnone, hk⟩ := h.disk raw
    · exact .inl he
    by_cases hraw : RecordOf k v raw
    · exact .inl (hnone.trans (hnew raw hraw).symm)
    refine .inr ⟨hnone, ?_⟩
    rw [← Bool.not_eq_true, shouldKeep_eq_true] at hk ⊢
    refine fun hkeep => hk fun k' v' hraw' => ?_
    have := hkeep k' v' hraw'
    rw [getElem?_insert_bytes] at this
    split at this
    · rename_i hkk
      subst hkk
      obtain rfl : v = v' := Option.some.inj this
      exact absurd hraw' hraw
    · exact this

/-! ## Versions issued -/

/-- Every version on disk was there from the start or has been issued since. -/
def Bounded (old : UInt64 → Prop) (st : Store) : Prop :=
  ∀ v, OnDisk st.disk v → old v ∨ v ≤ st.versionClock

/-- A version issued now is above every version issued before and all of `old`. -/
def Rising (old : UInt64 → Prop) : Call → World → Prop
  | .nextVersion, w => w.versionClock < w.nextIssue ∧ ∀ v, old v → v < w.nextIssue
  | _, _ => True

theorem Bounded.not_onDisk {old : UInt64 → Prop} {w : World} (h : Bounded old w.toStore)
    (hr : Rising old .nextVersion w) : ¬ OnDisk w.disk w.nextIssue := by
  intro hd
  obtain ho | hle := h _ hd
  · exact UInt64.lt_irrefl _ (hr.2 _ ho)
  · exact UInt64.not_lt.mpr hle hr.1

end GameStore
