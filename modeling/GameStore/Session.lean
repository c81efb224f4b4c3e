import GameStore.Conduct

/-!
# Opening a store, and runs of operations
-/

namespace GameStore

open Lib Std

/-! ## The rebuilt map -/

/-- The version a metadata record registers. -/
def registers (raw : Bytes) : Option UInt64 :=
  (Meta.decode raw).bind fun m => if m.composite then some m.version else none

/-- The map entry the metadata scan makes of a record. -/
def entryOf (item : Bytes × Bytes) : Option (Bytes × UInt64) :=
  (registers item.2).map fun v => (item.1.drop 1, v)

/-- The entries in the order the metadata scan meets them. -/
def entries (d : Disk) : List (Bytes × UInt64) := (prefixScan d [META_PREFIX]).filterMap entryOf

def setEntries (m : VersionMap) (es : List (Bytes × UInt64)) : VersionMap :=
  es.foldl (fun m e => m.insert e.1 e.2) m

/-- The map `rebuild_version_map` fills from a disk. -/
def diskVersions (d : Disk) : VersionMap := setEntries ∅ (entries d)

theorem diskVersion_eq_bind (d : Disk) (key : Bytes) :
    diskVersion d key = d[metaKey key]?.bind registers := by
  rw [diskVersion, readMeta]
  exact Option.bind_assoc _ _ _

theorem entryOf_eq_some {key raw k : Bytes} {v : UInt64} (hkey : [META_PREFIX] <+: key) :
    entryOf (key, raw) = some (k, v) ↔ key = metaKey k ∧ registers raw = some v := by
  obtain ⟨k', rfl⟩ := hkey
  simp only [entryOf, Option.map_eq_some_iff, Prod.mk.injEq]
  constructor
  · rintro ⟨u, hu, hk, rfl⟩
    exact ⟨congrArg (META_PREFIX :: ·) hk, hu⟩
  · rintro ⟨hk, hv⟩
    exact ⟨v, hv, congrArg List.tail hk, rfl⟩

theorem mem_entries {d : Disk} {k : Bytes} {v : UInt64} :
    (k, v) ∈ entries d ↔ diskVersion d k = some v := by
  rw [entries, List.mem_filterMap, diskVersion_eq_bind, Option.bind_eq_some_iff]
  constructor
  · rintro ⟨⟨key, raw⟩, hi, he⟩
    obtain ⟨hd, hpre⟩ := mem_prefixScan.mp hi
    obtain ⟨rfl, hv⟩ := (entryOf_eq_some hpre).mp he
    exact ⟨raw, hd, hv⟩
  · rintro ⟨raw, hd, hv⟩
    have hpre : [META_PREFIX] <+: metaKey k := ⟨k, rfl⟩
    exact ⟨(metaKey k, raw), mem_prefixScan.mpr ⟨hd, hpre⟩, (entryOf_eq_some hpre).mpr ⟨rfl, hv⟩⟩

theorem entries_keys_nodup (d : Disk) : ((entries d).map Prod.fst).Nodup := by
  rw [List.Nodup, List.pairwise_map, entries, List.pairwise_filterMap]
  have hnd := prefixScan_keys_nodup d [META_PREFIX]
  rw [List.Nodup, List.pairwise_map] at hnd
  refine hnd.imp_of_mem ?_
  rintro ⟨key, raw⟩ ⟨key', raw'⟩ hi hi' hne ⟨k, v⟩ he ⟨k', v'⟩ he' rfl
  apply hne
  rw [((entryOf_eq_some (mem_prefixScan.mp hi).2).mp he).1,
    ((entryOf_eq_some (mem_prefixScan.mp hi').2).mp he').1]

/-- With different keys no entry overwrites another. -/
theorem getElem?_setEntries {es : List (Bytes × UInt64)} (hnd : (es.map Prod.fst).Nodup)
    (k : Bytes) (v : UInt64) : (setEntries ∅ es)[k]? = some v ↔ (k, v) ∈ es := by
  induction es using List.reverseRecOn with
  | nil => simp [setEntries]
  | append_singleton es e ih =>
    rw [List.map_append, List.nodup_append] at hnd
    have hsplit : setEntries ∅ (es ++ [e]) = (setEntries ∅ es).insert e.1 e.2 := List.foldl_append
    rw [hsplit, getElem?_insert_bytes, List.mem_append, List.mem_singleton]
    split
    · rename_i hk
      subst hk
      have hnew : (e.1, v) ∉ es := fun hm =>
        hnd.2.2 e.1 (List.mem_map.mpr ⟨(e.1, v), hm, rfl⟩) e.1 (by simp) rfl
      simp only [hnew, false_or, Option.some.injEq]
      exact ⟨fun h => h ▸ rfl, fun h => congrArg Prod.snd h.symm⟩
    · rename_i hk
      have hne : (k, v) ≠ e := fun h => hk (congrArg Prod.fst h.symm)
      simp only [ih hnd.1, hne, or_false]

theorem getElem?_diskVersions (d : Disk) (key : Bytes) :
    (diskVersions d)[key]? = diskVersion d key := by
  apply Option.ext
  intro v
  rw [diskVersions, getElem?_setEntries (entries_keys_nodup d), mem_entries]

/-- The loop over the scanned metadata is one map update per entry. -/
theorem rebuildSteps_eq {items : List (Bytes × Bytes)}
    (hmeta : ∀ item ∈ items, [META_PREFIX] <+: item.1) :
    items.foldlM (fun _ item => rebuildStep item) () =
      (items.filterMap entryOf).foldlM (fun _ e => versionsSet e.1 e.2) () := by
  induction items with
  | nil => rfl
  | cons item items ih =>
    obtain ⟨key, raw⟩ := item
    obtain ⟨k, rfl⟩ := hmeta (key, raw) (by simp)
    have ih := ih fun item hi => hmeta item (List.mem_cons_of_mem _ hi)
    rw [List.foldlM_cons, rebuildStep, if_neg (by simp), List.filterMap_cons, entryOf, registers]
    cases Meta.decode raw with
    | none => exact ih
    | some m =>
      dsimp only [Option.bind_some]
      by_cases hm : m.composite
      · rw [if_pos hm, if_pos hm]
        exact congrArg (versionsSet k m.version >>= ·) (funext fun _ => ih)
      · rw [if_neg hm, if_neg hm]
        exact ih

theorem run_setEntries (es : List (Bytes × UInt64)) (w : World) :
    (es.foldlM (fun _ e => versionsSet e.1 e.2) ()).run exec w =
      (.ok (), { w with versions := setEntries w.versions es }) := by
  induction es generalizing w with
  | nil => rfl
  | cons e es ih => exact ih { w with versions := w.versions.insert e.1 e.2 }

theorem run_rebuildVersionMap (w : World) :
    rebuildVersionMap.run exec w = (.ok (), { w with versions := diskVersions w.disk }) := by
  have hmeta : ∀ item ∈ prefixScan w.disk [META_PREFIX], [META_PREFIX] <+: item.1 :=
    fun item hi => (mem_prefixScan.mp hi).2
  change ((prefixScan w.disk [META_PREFIX]).foldlM (fun _ item => rebuildStep item) ()).run exec
    { w with versions := ∅ } = _
  rw [rebuildSteps_eq hmeta, run_setEntries]
  rfl

/-- A process about to open a store: nothing in memory. -/
def World.boot (d : Disk) (clock : Clock) : World :=
  { disk := d, versions := ∅, gcInstalled := false, versionClock := 0, toClock := clock }

def World.opened (d : Disk) (clock : Clock) : World := (withEngine.run exec (World.boot d clock)).2

theorem opened_eq (d : Disk) (clock : Clock) : World.opened d clock =
    { disk := d, versions := diskVersions d, gcInstalled := true, versionClock := 0, toClock := clock } := by
  rw [World.opened, withEngine, Prog.perform_bind, Prog.run_call, run_rebuildVersionMap]
  rfl

/-! ## Runs -/

/-- What happens to a store between two moments at which nothing is running. -/
inductive Event
  | run (op : Op)
  /-- The operation, with its `n`-th write answering an error and applying nothing. -/
  | failing (op : Op) (n : ℕ)
  /-- The process ends and another one opens the store. -/
  | restart (clock : Clock)

def isWrite : Call → Bool
  | .write _ => true
  | _ => false

/-- An operation whose `n`-th write fails (it runs to its end if it has fewer). -/
def Op.runFailing (op : Op) (n : ℕ) (w : World) : Except EngineError Reply × World :=
  op.prog.runFailing exec isWrite (.backend "write failed") n w

def Event.apply (w : World) : Event → World
  | .run op => (op.run w).2
  | .failing op n => (op.runFailing n w).2
  | .restart clock => World.opened w.disk clock

/-- The state a run of events leads to. -/
def World.after (w : World) (events : List Event) : World := events.foldl Event.apply w

/-- Every step of the run meets `cond` in the state it is taken in. -/
def Steps (cond : World → Event → Prop) : World → List Event → Prop
  | _, [] => True
  | w, e :: es => cond w e ∧ Steps cond (e.apply w) es

instance Steps.decidable {cond : World → Event → Prop} [∀ w e, Decidable (cond w e)] :
    ∀ w es, Decidable (Steps cond w es)
  | _, [] => inferInstanceAs (Decidable True)
  | w, e :: es =>
    have : Decidable (Steps cond (e.apply w) es) := Steps.decidable _ es
    inferInstanceAs (Decidable (cond w e ∧ Steps cond (e.apply w) es))

/-- What every step keeps holds at the end of the run (and so in every state of
it, each being the end of a shorter run). -/
theorem Steps.induction {cond : World → Event → Prop} {I : World → Prop}
    (hI : ∀ w e, cond w e → I w → I (e.apply w)) {es : List Event} {w : World}
    (hes : Steps cond w es) (hw : I w) : I (w.after es) := by
  induction es generalizing w with
  | nil => exact hw
  | cons e es ih => exact ih hes.2 (hI w e hes.1 hw)

/-- Nothing uninstalls the filter. -/
theorem gcInstalled_exec (o : Call) (w : World) (h : w.gcInstalled = true) :
    (exec o w).2.gcInstalled = true := by
  cases o <;> first | exact h | rfl

theorem gcInstalled_run {α : Type} (p : StoreM α) {w : World} (h : w.gcInstalled = true) :
    (p.run exec w).2.gcInstalled = true :=
  Prog.run_induction (I := fun w => w.gcInstalled = true) exec gcInstalled_exec p h

end GameStore
