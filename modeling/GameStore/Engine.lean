import GameStore.Lib.Program
import GameStore.Lib.PrefixScan
import GameStore.Encoding

/-!
# The engine, the version map and the clocks (`engine.rs`, `rocks.rs`, `gc.rs`)

The engine is an ordered map of records. A `Store` is what the threads of one
process share: the records, the version map, the slot of the compaction filter
and the static `VERSION_CLOCK`. A `Clock` holds the wall-clock readings one
client will get; nothing relates one reading to the next.
-/

namespace GameStore

open Lib Std

inductive EngineError
  | backend (msg : String)
  | corruption (msg : String)
  | wrongType
  deriving DecidableEq, Repr

inductive WriteOp
  | put (key value : Bytes)
  | delete (key : Bytes)
  deriving DecidableEq, Repr

abbrev WriteBatch := List WriteOp

abbrev Disk := ExtTreeMap Bytes Bytes

abbrev VersionMap := ExtTreeMap Bytes UInt64

def WriteOp.key : WriteOp → Bytes
  | put key _ => key
  | delete key => key

def WriteOp.value : WriteOp → Option Bytes
  | put _ value => some value
  | delete _ => none

def WriteOp.apply (d : Disk) : WriteOp → Disk
  | put key value => d.insert key value
  | delete key => d.erase key

/-- A batch is applied in order and as a whole. -/
def applyBatch (d : Disk) (b : WriteBatch) : Disk := b.foldl WriteOp.apply d

/-- The predicate behind the compaction filter. -/
def shouldKeep (versions : VersionMap) (key : Bytes) : Bool :=
  match parseOwnerVersion key with
  | none => true
  | some (userKey, version) =>
    match versions[userKey]? with
    | some current => version == current
    | none => false

structure Store where
  disk : Disk
  versions : VersionMap
  /-- Whether `install_gc` has put `versions` into the filter's slot. -/
  gcInstalled : Bool
  versionClock : UInt64

structure Clock where
  ms : Stream' UInt64
  micros : Stream' UInt64

structure World extends Store, Clock

/-- The filter keeps every record while its slot is empty. -/
def Store.filterKeeps (s : Store) (key : Bytes) : Bool := !s.gcInstalled || shouldKeep s.versions key

/-- One compaction over the records `sel` selects. -/
def Store.compact (sel : Bytes → Bool) (s : Store) : Store :=
  { s with disk := s.disk.filter fun key _ => !sel key || s.filterKeeps key }

def World.compact (sel : Bytes → Bool) (w : World) : World :=
  { w with toStore := w.toStore.compact sel }

/-- The calls of the store: one per engine call and per `VersionMap` call, each
atomic. `nextVersion` is the compare-exchange loop of `next_version`, which
takes effect in its one successful exchange. -/
inductive Call
  | get (key : Bytes)
  | write (batch : WriteBatch)
  | scanPrefix (pre : Bytes)
  | compactRange
  | installGc
  | versionsSet (key : Bytes) (version : UInt64)
  | versionsRemove (key : Bytes)
  | versionsClear
  | nextVersion
  | nowMs

abbrev Call.Ans : Call → Type
  | get _ => Option Bytes
  | write _ => Unit
  | scanPrefix _ => List (Bytes × Bytes)
  | compactRange => Unit
  | installGc => Unit
  | versionsSet _ _ => Unit
  | versionsRemove _ => Unit
  | versionsClear => Unit
  | nextVersion => UInt64
  | nowMs => UInt64

/-- The version `next_version` would issue now. -/
def World.nextIssue (w : World) : UInt64 := max (w.versionClock + 1) w.micros.head

def exec : (o : Call) → World → o.Ans × World
  | .get key, w => (w.disk[key]?, w)
  | .write batch, w => ((), { w with disk := applyBatch w.disk batch })
  | .scanPrefix pre, w => (prefixScan w.disk pre, w)
  | .compactRange, w => ((), w.compact fun _ => true)
  | .installGc, w => ((), { w with gcInstalled := true })
  | .versionsSet key version, w => ((), { w with versions := w.versions.insert key version })
  | .versionsRemove key, w => ((), { w with versions := w.versions.erase key })
  | .versionsClear, w => ((), { w with versions := ∅ })
  | .nextVersion, w =>
    (w.nextIssue, { w with versionClock := w.nextIssue, micros := w.micros.tail })
  | .nowMs, w => (w.ms.head, { w with ms := w.ms.tail })

abbrev StoreM := Prog Call Call.Ans EngineError

abbrev engineGet (key : Bytes) : StoreM (Option Bytes) := Prog.perform (Call.get key)
abbrev engineWrite (batch : WriteBatch) : StoreM Unit := Prog.perform (Call.write batch)
abbrev scanPrefix (pre : Bytes) : StoreM (List (Bytes × Bytes)) := Prog.perform (Call.scanPrefix pre)
abbrev compactRange : StoreM Unit := Prog.perform Call.compactRange
abbrev installGc : StoreM Unit := Prog.perform Call.installGc
abbrev versionsSet (key : Bytes) (version : UInt64) : StoreM Unit :=
  Prog.perform (Call.versionsSet key version)
abbrev versionsRemove (key : Bytes) : StoreM Unit := Prog.perform (Call.versionsRemove key)
abbrev versionsClear : StoreM Unit := Prog.perform Call.versionsClear
abbrev nextVersion : StoreM UInt64 := Prog.perform Call.nextVersion
abbrev nowMs : StoreM UInt64 := Prog.perform Call.nowMs

/-! ## Records after a batch -/

theorem compare_eq_bytes {a b : Bytes} : compare a b = .eq ↔ a = b := compare_eq_iff_eq

theorem getElem?_insert_bytes {ν : Type} (m : ExtTreeMap Bytes ν) (k key : Bytes) (v : ν) :
    (m.insert k v)[key]? = if k = key then some v else m[key]? := by
  simp only [ExtTreeMap.getElem?_insert, compare_eq_bytes]

theorem getElem?_erase_bytes {ν : Type} (m : ExtTreeMap Bytes ν) (k key : Bytes) :
    (m.erase k)[key]? = if k = key then none else m[key]? := by
  simp only [ExtTreeMap.getElem?_erase, compare_eq_bytes]

theorem getElem?_apply (d : Disk) (op : WriteOp) (key : Bytes) :
    (op.apply d)[key]? = if op.key = key then op.value else d[key]? := by
  cases op with
  | put k v => exact getElem?_insert_bytes d k key v
  | delete k => exact getElem?_erase_bytes d k key

theorem applyBatch_append (d : Disk) (b b' : WriteBatch) :
    applyBatch d (b ++ b') = applyBatch (applyBatch d b) b' := List.foldl_append

@[simp] theorem applyBatch_nil (d : Disk) : applyBatch d [] = d := rfl

theorem getElem?_applyBatch_concat (d : Disk) (b : WriteBatch) (op : WriteOp) (key : Bytes) :
    (applyBatch d (b ++ [op]))[key]? = if op.key = key then op.value else (applyBatch d b)[key]? := by
  rw [applyBatch_append]
  exact getElem?_apply _ op key

@[simp] theorem getElem?_applyBatch_single (d : Disk) (op : WriteOp) (key : Bytes) :
    (applyBatch d [op])[key]? = if op.key = key then op.value else d[key]? := getElem?_apply d op key

/-- A batch leaves every record alone that it does not name. -/
theorem getElem?_applyBatch_of_ne {d : Disk} {b : WriteBatch} {key : Bytes}
    (h : ∀ op ∈ b, op.key ≠ key) : (applyBatch d b)[key]? = d[key]? := by
  induction b using List.reverseRecOn with
  | nil => rfl
  | append_singleton b op ih =>
    rw [getElem?_applyBatch_concat, if_neg (h op (by simp))]
    exact ih fun o ho => h o (List.mem_append_left _ ho)

/-- A record after a batch is an old one or one the batch put. -/
theorem mem_of_getElem?_applyBatch {d : Disk} {b : WriteBatch} {key value : Bytes}
    (h : (applyBatch d b)[key]? = some value) : d[key]? = some value ∨ .put key value ∈ b := by
  induction b using List.reverseRecOn with
  | nil => exact .inl h
  | append_singleton b op ih =>
    rw [getElem?_applyBatch_concat] at h
    split at h
    · rename_i hk
      cases op with
      | put k v =>
        obtain rfl : k = key := hk
        obtain rfl : v = value := Option.some.inj h
        exact .inr (by simp)
      | delete k => cases h
    · exact (ih h).imp id (List.mem_append_left _)

/-! ## Records after a compaction -/

theorem getElem?_compact (sel : Bytes → Bool) (s : Store) (key : Bytes) :
    (s.compact sel).disk[key]? = if sel key && !s.filterKeeps key then none else s.disk[key]? := by
  simp only [Store.compact, ExtTreeMap.getElem?_filter']
  cases s.disk[key]? with
  | none => simp
  | some value => cases sel key <;> cases s.filterKeeps key <;> simp [Option.filter]

theorem getElem?_compact_eq_some {sel : Bytes → Bool} {s : Store} {key value : Bytes} :
    (s.compact sel).disk[key]? = some value ↔
      s.disk[key]? = some value ∧ (sel key → s.filterKeeps key = true) := by
  rw [getElem?_compact]
  cases sel key <;> cases s.filterKeeps key <;> simp

theorem shouldKeep_eq_true {versions : VersionMap} {key : Bytes} :
    shouldKeep versions key = true ↔
      ∀ k v, parseOwnerVersion key = some (k, v) → versions[k]? = some v := by
  unfold shouldKeep
  cases hp : parseOwnerVersion key with
  | none => simp
  | some kv =>
    obtain ⟨k, v⟩ := kv
    simp only [Option.some.injEq, Prod.mk.injEq, and_imp]
    cases hv : versions[k]? with
    | none => simp [hv]
    | some u =>
      simp only [beq_iff_eq]
      constructor
      · rintro rfl k' v' rfl rfl
        exact hv
      · intro h
        have := h k v rfl rfl
        rw [hv] at this
        exact (Option.some.inj this).symm

end GameStore
