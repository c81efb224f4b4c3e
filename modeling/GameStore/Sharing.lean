import GameStore.Lib.Interleaving
import GameStore.Sequential

/-!
# Two clients on one store

The connections of a server share one `Store` and nothing orders their calls: an
operation that reads, computes and writes back may be overtaken between two of
its calls. Each client has its own clock readings; the records, the version map
and the static version clock are shared.
-/

namespace GameStore

open Lib Std

/-- One call on the shared store. -/
def execOn (o : Call) (c : Clock × Store) : o.Ans × (Clock × Store) :=
  let r := exec o { toStore := c.2, toClock := c.1 }
  (r.1, (r.2.toClock, r.2.toStore))

theorem run_execOn {α : Type} (p : StoreM α) (c : Clock) (s : Store) :
    p.run execOn (c, s) = ((p.run exec ⟨s, c⟩).1, ((p.run exec ⟨s, c⟩).2.toClock, (p.run exec ⟨s, c⟩).2.toStore)) := by
  induction p generalizing c s with
  | ok a => rfl
  | err e => rfl
  | call o next ih => exact ih _ _ _

/-! ## Calls that may not change places -/

/-- The two calls touch one record and one of them writes it, or set one entry of
the map, or both issue a version. A compaction goes through everything. -/
def Call.conflicts : Call → Call → Bool
  | .write b, .write b' => b.any fun op => b'.any fun op' => op.key == op'.key
  | .write b, .get key => b.any fun op => op.key == key
  | .get key, .write b => b.any fun op => op.key == key
  | .write b, .scanPrefix pre => b.any fun op => pre.isPrefixOf op.key
  | .scanPrefix pre, .write b => b.any fun op => pre.isPrefixOf op.key
  | .versionsSet k _, .versionsSet k' _ => k == k'
  | .versionsSet k _, .versionsRemove k' => k == k'
  | .versionsRemove k, .versionsSet k' _ => k == k'
  | .versionsSet _ _, .versionsClear => true
  | .versionsClear, .versionsSet _ _ => true
  | .nextVersion, .nextVersion => true
  | .compactRange, o => match o with
    | .compactRange | .nextVersion | .nowMs => false
    | _ => true
  | o, .compactRange => match o with
    | .nextVersion | .nowMs => false
    | _ => true
  | _, _ => false

/-- Batches that name different records may be applied in either order. -/
theorem applyBatch_comm {b b' : WriteBatch} (h : ∀ op ∈ b, ∀ op' ∈ b', op.key ≠ op'.key) (d : Disk) :
    applyBatch (applyBatch d b) b' = applyBatch (applyBatch d b') b := by
  apply ExtTreeMap.ext_getElem?
  intro key
  by_cases hb : ∃ op ∈ b, op.key = key
  · obtain ⟨op, hop, rfl⟩ := hb
    have hne : ∀ op' ∈ b', op'.key ≠ op.key := fun op' hop' he => h op hop op' hop' he.symm
    rw [getElem?_applyBatch_of_ne hne]
    exact getElem?_applyBatch_congr b (getElem?_applyBatch_of_ne hne).symm
  · have hne : ∀ op ∈ b, op.key ≠ key := fun op hop he => hb ⟨op, hop, he⟩
    rw [getElem?_applyBatch_of_ne hne]
    exact getElem?_applyBatch_congr b' (getElem?_applyBatch_of_ne hne)

theorem commutes_write_write {b b' : WriteBatch} (h : Call.conflicts (.write b) (.write b') = false) :
    Commutes execOn (.write b) (.write b') := by
  have hne : ∀ op ∈ b, ∀ op' ∈ b', op.key ≠ op'.key := by
    simpa [Call.conflicts] using h
  refine ⟨fun _ _ _ => rfl, fun _ _ _ => rfl, fun _ _ s => ?_⟩
  exact congrArg (fun d => { s with disk := d }) (applyBatch_comm hne s.disk)

theorem commutes_write_get {b : WriteBatch} {key : Bytes} (h : Call.conflicts (.write b) (.get key) = false) :
    Commutes execOn (.write b) (.get key) := by
  have hne : ∀ op ∈ b, op.key ≠ key := by
    simpa [Call.conflicts] using h
  refine ⟨fun _ _ _ => rfl, fun _ l s => ?_, fun _ _ _ => rfl⟩
  exact congrArg (fun a => (a, l)) (getElem?_applyBatch_of_ne hne)

theorem commutes_write_scanPrefix {b : WriteBatch} {pre : Bytes}
    (h : Call.conflicts (.write b) (.scanPrefix pre) = false) :
    Commutes execOn (.write b) (.scanPrefix pre) := by
  have hne : ∀ op ∈ b, ¬ pre <+: op.key := by
    simpa [Call.conflicts] using h
  refine ⟨fun _ _ _ => rfl, fun _ l s => ?_, fun _ _ _ => rfl⟩
  refine congrArg (fun a => (a, l)) (prefixScan_congr fun key hkey => ?_)
  apply getElem?_applyBatch_of_ne
  rintro op hop rfl
  exact hne op hop hkey

theorem insert_comm {k k' : Bytes} (hne : k ≠ k') (m : VersionMap) (v v' : UInt64) :
    (m.insert k v).insert k' v' = (m.insert k' v').insert k v := by
  apply ExtTreeMap.ext_getElem?
  intro key
  simp only [getElem?_insert_bytes]
  by_cases h : k' = key
  · subst h
    simp [hne]
  · simp [h]

theorem erase_insert_comm {k k' : Bytes} (hne : k ≠ k') (m : VersionMap) (v : UInt64) :
    (m.insert k v).erase k' = (m.erase k').insert k v := by
  apply ExtTreeMap.ext_getElem?
  intro key
  simp only [getElem?_insert_bytes, getElem?_erase_bytes]
  by_cases h : k' = key
  · subst h
    simp [hne]
  · simp [h]

theorem erase_comm (m : VersionMap) (k k' : Bytes) : (m.erase k).erase k' = (m.erase k').erase k := by
  apply ExtTreeMap.ext_getElem?
  intro key
  simp only [getElem?_erase_bytes]
  by_cases h : k' = key
  · simp [h]
  · simp [h]

/-- Calls that do not conflict may change places. -/
theorem commutes_of_not_conflicts (o o' : Call) (h : ¬ o.conflicts o' = true) : Commutes execOn o o' := by
  rw [Bool.not_eq_true] at h
  cases o <;> cases o' <;>
    first
      | exact ⟨fun _ _ _ => rfl, fun _ _ _ => rfl, fun _ _ _ => rfl⟩
      | exact Bool.noConfusion h
      | skip
  case write.write => exact commutes_write_write h
  case write.get => exact commutes_write_get h
  case get.write => exact (commutes_write_get h).symm
  case write.scanPrefix => exact commutes_write_scanPrefix h
  case scanPrefix.write => exact (commutes_write_scanPrefix h).symm
  case versionsSet.versionsSet k v k' v' =>
    have hne : k ≠ k' := by simpa [Call.conflicts] using h
    exact ⟨fun _ _ _ => rfl, fun _ _ _ => rfl, fun _ _ s =>
      congrArg (fun m => { s with versions := m }) (insert_comm hne s.versions v v')⟩
  case versionsSet.versionsRemove k v k' =>
    have hne : k ≠ k' := by simpa [Call.conflicts] using h
    exact ⟨fun _ _ _ => rfl, fun _ _ _ => rfl, fun _ _ s =>
      congrArg (fun m => { s with versions := m }) (erase_insert_comm hne s.versions v)⟩
  case versionsRemove.versionsSet k k' v =>
    have hne : k ≠ k' := by simpa [Call.conflicts] using h
    exact ⟨fun _ _ _ => rfl, fun _ _ _ => rfl, fun _ _ s =>
      congrArg (fun m => { s with versions := m }) (erase_insert_comm hne.symm s.versions v).symm⟩
  case versionsRemove.versionsRemove k k' =>
    exact ⟨fun _ _ _ => rfl, fun _ _ _ => rfl, fun _ _ s =>
      congrArg (fun m => { s with versions := m }) (erase_comm s.versions k k')⟩

/-! ## Two operations on one key -/

def KeyOp.mutates : KeyOp → Bool
  | .hset _ | .hdel _ | .sadd _ | .srem _ | .zadd _ | .zrem _ | .push _ _ | .pop _ _ | .del => true
  | _ => false

/-- The two operations on `key`, each with its clock, under a schedule of their calls. -/
def race (key : Key) (op : Bool → KeyOp) (clock : Bool → Clock) (s : Store) (sched : List Bool) :
    Two Call Call.Ans EngineError Reply Clock Store :=
  (Two.begin clock (fun b => (op b).prog key.1) s).run execOn sched

/-- A later reader sees the same type, elements, count and expiry in both stores. -/
def SeenAlike (key : Key) (s s' : Store) : Prop :=
  ∀ op : KeyOp, op.isRead → ∀ clock : Clock,
    ((Op.keyed key op).run ⟨s, clock⟩).1 = ((Op.keyed key op).run ⟨s', clock⟩).1

/-- The replies and the content are those of one operation after the other. -/
def Serializes (key : Key) (op : Bool → KeyOp) (clock : Bool → Clock) (s : Store)
    (r : Bool → Except EngineError Reply) (s' : Store) : Prop :=
  ∃ first : Bool,
    let one := (Op.keyed key (op first)).run ⟨s, clock first⟩
    let two := (Op.keyed key (op !first)).run ⟨one.2.toStore, clock !first⟩
    r first = one.1 ∧ (r !first) = two.1 ∧ SeenAlike key s' two.2.toStore

/-- No call of the operation `first` comes after a conflicting call of the other one. -/
def Precedes (key : Key) (op : Bool → KeyOp) (clock : Bool → Clock) (s : Store) (first : Bool)
    (sched : List Bool) : Prop :=
  Meets (Two.step execOn) (Two.Ahead (fun o o' => o.conflicts o' = true) first)
    (Two.begin clock (fun b => (op b).prog key.1) s) sched

theorem race_serializes (key : Key) (op : Bool → KeyOp) (clock : Bool → Clock) (s : Store)
    (sched : List Bool) (r : Bool → Except EngineError Reply)
    (hr : ∀ b, ((race key op clock s sched).proc b).result = some (r b))
    (hsched : ∃ first, Precedes key op clock s first sched) :
    Serializes key op clock s r (race key op clock s sched).shared := by
  obtain ⟨first, hfirst⟩ := hsched
  obtain ⟨l, s', l', hone, htwo⟩ := Two.serial_run commutes_of_not_conflicts hfirst hr
  rw [run_execOn, Prod.mk.injEq, Prod.mk.injEq] at hone htwo
  obtain ⟨hr₁, -, hs₁⟩ := hone
  obtain ⟨hr₂, -, hs₂⟩ := htwo
  have hend : (race key op clock s sched).shared =
      ((Op.keyed key (op !first)).run
        ⟨((Op.keyed key (op first)).run ⟨s, clock first⟩).2.toStore, clock !first⟩).2.toStore := by
    rw [race, ← hs₂, ← hs₁]
    rfl
  refine ⟨first, hr₁.symm, ?_, fun read _ c => ?_⟩
  · rw [← hr₂, ← hs₁]
    rfl
  · rw [hend]

/-- A list is deleted; the push of another client finds it gone before the map entry is
dropped, and registers its own version after that. -/
theorem race_serializes_del_push :
    ∃ r, Serializes Key.k (fun b => if b then .push [[98]] true else .del) (fun _ => stillClock 7 5)
      ((World.opened ∅ (stillClock 7 5)).after [.run (.keyed Key.k (.push [[97]] true))]).toStore r
      (race Key.k (fun b => if b then .push [[98]] true else .del) (fun _ => stillClock 7 5)
        ((World.opened ∅ (stillClock 7 5)).after [.run (.keyed Key.k (.push [[97]] true))]).toStore
        [false, false, true, false, true, true, true]).shared := by
  refine ⟨fun b => .ok (if b then .int 1 else .bool true), race_serializes _ _ _ _ _ _ ?_ ⟨false, ?_⟩⟩
  · decide +kernel
  · unfold Precedes
    decide +kernel

/-- Two pushes on a missing key, both of which look before either writes. -/
theorem race_loses_push :
    ¬ ∀ (key : Key) (op : Bool → KeyOp) (clock : Bool → Clock) (s : Store) (sched : List Bool)
      (r : Bool → Except EngineError Reply), (∀ b, (op b).mutates) →
      (∀ b, ((race key op clock s sched).proc b).result = some (r b)) →
      Serializes key op clock s r (race key op clock s sched).shared := by
  intro h
  obtain ⟨first, hone, htwo, -⟩ := h Key.k (fun b => .push [[if b then 98 else 97]] true)
    (fun _ => stillClock 7 5) (World.opened ∅ (stillClock 7 5)).toStore
    [false, true, false, false, false, true, true, true] (fun _ => .ok (.int 1)) (by decide)
    (by decide +kernel)
  cases first with
  | false => exact absurd htwo (by decide +kernel)
  | true => exact absurd htwo (by decide +kernel)

end GameStore
