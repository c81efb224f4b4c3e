import GameStore.Garbage

/-!
# The versions on disk
-/

namespace GameStore

open Lib Std

/-- `v` is the version of a composite key or of some record, live or stale. -/
def OnDisk (d : Disk) (v : UInt64) : Prop :=
  (∃ k, diskVersion d k = some v) ∨ ∃ k raw, raw ∈ d ∧ RecordOf k v raw

theorem mem_of_mem_applyBatch {d : Disk} {b : WriteBatch} {raw : Bytes} (h : raw ∈ applyBatch d b) :
    raw ∈ d ∨ ∃ op ∈ b, op.key = raw := by
  rw [ExtTreeMap.mem_iff_isSome_getElem?] at h
  obtain ⟨value, hv⟩ := Option.isSome_iff_exists.mp h
  obtain hd | hb := mem_of_getElem?_applyBatch hv
  · left
    rw [ExtTreeMap.mem_iff_isSome_getElem?, hd]
    rfl
  · exact .inr ⟨_, hb, rfl⟩

theorem RecordOf.version_eq {k k' raw : Bytes} {v v' : UInt64} (h : RecordOf k v raw)
    (h' : RecordOf k' v' raw) : v = v' := by
  have := h.symm.trans h'
  simp only [Option.some.injEq, Prod.mk.injEq] at this
  exact this.2

theorem onDisk_putMeta {d : Disk} {k : Bytes} {u v : UInt64} {recs : WriteBatch} {m : Meta}
    (hr : Records k u recs) (h : OnDisk (applyBatch d (recs ++ [.put (metaKey k) m.encode])) v) :
    OnDisk d v ∨ (recs ≠ [] ∧ v = u) ∨ (m.composite ∧ v = m.version) := by
  obtain ⟨k', hv⟩ | ⟨k', raw, hmem, hraw⟩ := h
  · rw [diskVersion_putMeta hr] at hv
    split at hv
    · split at hv
      · rename_i hm
        exact .inr (.inr ⟨hm, (Option.some.inj hv).symm⟩)
      · cases hv
    · exact .inl (.inl ⟨k', hv⟩)
  · obtain hd | ⟨op, hop, rfl⟩ := mem_of_mem_applyBatch hmem
    · exact .inl (.inr ⟨k', raw, hd, hraw⟩)
    · obtain hop | hop := List.mem_append.mp hop
      · exact .inr (.inl ⟨List.ne_nil_of_mem hop, hraw.version_eq (hr op hop)⟩)
      · rw [List.mem_singleton.mp hop] at hraw
        exact absurd rfl (hraw.ne_metaKey k)

theorem onDisk_records {d : Disk} {k : Bytes} {u v : UInt64} {recs : WriteBatch}
    (hr : Records k u recs) (h : OnDisk (applyBatch d recs) v) :
    OnDisk d v ∨ (recs ≠ [] ∧ v = u) := by
  obtain ⟨k', hv⟩ | ⟨k', raw, hmem, hraw⟩ := h
  · rw [diskVersion_congr (hr.getElem?_metaKey d k')] at hv
    exact .inl (.inl ⟨k', hv⟩)
  · obtain hd | ⟨op, hop, rfl⟩ := mem_of_mem_applyBatch hmem
    · exact .inl (.inr ⟨k', raw, hd, hraw⟩)
    · exact .inr ⟨List.ne_nil_of_mem hop, hraw.version_eq (hr op hop)⟩

theorem onDisk_eraseMeta {d : Disk} {k : Bytes} {v : UInt64} (h : OnDisk (d.erase (metaKey k)) v) :
    OnDisk d v := by
  obtain ⟨k', hv⟩ | ⟨k', raw, hmem, hraw⟩ := h
  · rw [diskVersion_erase] at hv
    split at hv
    · cases hv
    · exact .inl ⟨k', hv⟩
  · exact .inr ⟨k', raw, ExtTreeMap.mem_of_mem_erase hmem, hraw⟩

theorem mem_compact {sel : Bytes → Bool} {w : World} {raw : Bytes} (h : raw ∈ (w.compact sel).disk) :
    raw ∈ w.disk := by
  rw [ExtTreeMap.mem_iff_isSome_getElem?] at h ⊢
  obtain ⟨value, hv⟩ := Option.isSome_iff_exists.mp h
  have hv : (w.toStore.compact sel).disk[raw]? = some value := hv
  rw [(getElem?_compact_eq_some.mp hv).1]
  rfl

theorem onDisk_of_subset {d d' : Disk} {v : UInt64} (hmem : ∀ raw, raw ∈ d' → raw ∈ d)
    (hv : ∀ k u, diskVersion d' k = some u → diskVersion d k = some u) (h : OnDisk d' v) : OnDisk d v :=
  h.imp (fun ⟨k, hk⟩ => ⟨k, hv k v hk⟩) fun ⟨k, raw, hr, hraw⟩ => ⟨k, raw, hmem raw hr, hraw⟩

theorem not_onDisk_empty (v : UInt64) : ¬ OnDisk ∅ v := by
  rintro (⟨k, hk⟩ | ⟨k, raw, hmem, -⟩)
  · rw [diskVersion_of_missing (by simp)] at hk
    cases hk
  · simp at hmem

theorem RecordOf.stored {k raw : Bytes} {v : UInt64} (h : RecordOf k v raw) : Stored raw := by
  obtain ⟨-, ⟨rest, hp⟩ | ⟨rest, hp⟩⟩ := parseOwnerVersion_eq_some.mp h
  · exact .inr (.inl ⟨_, hp⟩)
  · exact .inr (.inr ⟨_, hp⟩)

theorem not_onDisk_flushed (d : Disk) (v : UInt64) : ¬ OnDisk (flushed d) v := by
  rintro (⟨k, hk⟩ | ⟨k, raw, hmem, hraw⟩)
  · rw [diskVersion_flushed] at hk
    cases hk
  · rw [ExtTreeMap.mem_iff_isSome_getElem?, getElem?_flushed, if_pos hraw.stored] at hmem
    cases hmem

theorem onDisk_compact {sel : Bytes → Bool} {w : World} {v : UInt64}
    (h : OnDisk (w.compact sel).disk v) : OnDisk w.disk v :=
  onDisk_of_subset (fun _ => mem_compact)
    (fun k _ hu => (diskVersion_compact sel w.toStore k).symm.trans hu) h

theorem onDisk_of_live {w : World} {k : Bytes} {m : Meta} (hlive : w.liveMeta k = some m)
    (hm : m.composite) : OnDisk w.disk m.version := by
  refine .inl ⟨k, ?_⟩
  rw [diskVersion_of_liveMeta hlive, if_pos hm]

end GameStore
