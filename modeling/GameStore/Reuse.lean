import GameStore.Readback
import GameStore.Versions

/-!
# A key built anew

The version a creating operation is issued is above every version on disk as long
as each process starts with its clock above them. Nothing of the key's earlier
life is then under the new version, and a read returns what was just written.
-/

namespace GameStore

open Lib Std

def KeyOp.creates : KeyOp → Bool
  | .hset _ | .sadd _ | .zadd _ | .push _ _ => true
  | _ => false

/-- How many elements a creating operation lists. -/
def KeyOp.listed : KeyOp → ℕ
  | .hset pairs => pairs.length
  | .sadd members => members.length
  | .zadd pairs => pairs.length
  | .push values _ => values.length
  | _ => 0

/-- Reading the key returns exactly the elements the operation lists: each field
with its last value, each member (with its last score), the values in order. -/
def ReadsBack (k : Bytes) (s : World) : KeyOp → Prop
  | .hset pairs => ∃ l, ((hgetall k).run exec s).1 = .ok l ∧ (l.map Prod.fst).Nodup ∧
      ∀ f value, (f, value) ∈ l ↔ pairs.reverse.lookup f = some value
  | .sadd members => ∃ l, ((smembers k).run exec s).1 = .ok l ∧ l.Nodup ∧ ∀ x, x ∈ l ↔ x ∈ members
  | .zadd pairs => ∃ l, ((zrange k 0 (-1)).run exec s).1 = .ok l ∧ (l.map Prod.fst).Nodup ∧
      ∀ x score, (x, score) ∈ l ↔ (pairs.map Prod.swap).reverse.lookup x = some score
  | .push values left => ((lrange k 0 (-1)).run exec s).1 = .ok (pushed values left)
  | _ => True

/-- A created key, with the metadata it was created with. -/
theorem diskVersion_afterCreation {k : Bytes} {v : UInt64} {recs : WriteBatch} (w : World)
    (hr : Records k v recs) {m : Meta} (hm : m.composite) :
    diskVersion (afterCreation w k recs m).disk k = some m.version := by
  rw [diskVersion, readMeta_afterCreation hr]
  exact if_pos hm

theorem creation_reads_back (key : Key) {op : KeyOp} (hop : op.creates) (hcall : op.wellCalled)
    (hlen : op.listed < 2 ^ 32) {w : World} (habs : w.Absent key.1)
    (hnew : Unused w.disk key.1 w.nextIssue) : ∃ reply s, (op.prog key.1).run exec w = (.ok reply, s) ∧
      diskVersion s.disk key.1 = some w.nextIssue ∧ ReadsBack key.1 s op := by
  obtain ⟨k, hk⟩ := key
  have hne : ∀ {α : Type} {l : List α}, (!l.isEmpty) = true → l ≠ [] := by
    rintro α l h rfl
    cases h
  -- No record of the new version is there yet, so what is read is what was written.
  cases op with
  | hset pairs =>
    obtain ⟨w', hload, hd⟩ := run_loadOrCreate_absent habs TYPE_HASH fun m => m.setFieldCount 0
    have hnew' : Unused w'.disk k w.nextIssue := hd ▸ hnew.erase (metaKey k)
    have hr := fieldPuts_records (v := w.nextIssue) hk pairs
    have hrun := run_hset pairs hload
    refine ⟨_, _, (Prog.run_map exec _ _ _).trans (by rw [hrun]; rfl), ?_, ?_⟩
    · exact diskVersion_afterCreation w' hr rfl
    · exact hgetall_afterCreation hk hnew' pairs rfl rfl rfl
  | sadd members =>
    obtain ⟨w', hload, hd⟩ := run_loadOrCreate_absent habs TYPE_SET fun m => m.setFieldCount 0
    have hnew' : Unused w'.disk k w.nextIssue := hd ▸ hnew.erase (metaKey k)
    obtain ⟨seen, hseen, hrun⟩ := run_sadd_new hk (hne hcall) hload hnew'
    refine ⟨_, _, (Prog.run_map exec _ _ _).trans (by rw [hrun]; rfl), ?_, ?_⟩
    · exact diskVersion_afterCreation w' (fieldPuts_records hk _) rfl
    · obtain ⟨l, hl, hnd, hmem⟩ := smembers_afterCreation hk hnew' seen
        (m := (newMeta TYPE_SET w.nextIssue).setFieldCount (UInt32.ofNat seen.length)) rfl rfl rfl
      exact ⟨l, hl, hnd, fun x => (hmem x).trans (hseen x)⟩
  | zadd pairs =>
    obtain ⟨w', hload, hd⟩ := run_loadOrCreate_absent habs TYPE_ZSET fun m => m.setFieldCount 0
    have hnew' : Unused w'.disk k w.nextIssue := hd ▸ hnew.erase (metaKey k)
    have hrun := run_zadd_new hk (hne hcall) hload hnew'
    refine ⟨_, _, (Prog.run_map exec _ _ _).trans (by rw [hrun]; rfl), ?_, ?_⟩
    · exact diskVersion_afterCreation w' (memberPuts_records hk _) rfl
    · exact zrange_afterCreation hk hnew' (hne hcall) hlen rfl
  | push values left =>
    obtain ⟨w', hload, hd⟩ := run_loadOrCreate_absent habs TYPE_LIST fun m =>
      m.setListBounds LIST_INITIAL_INDEX LIST_INITIAL_INDEX
    have hnew' : Unused w'.disk k w.nextIssue := hd ▸ hnew.erase (metaKey k)
    obtain ⟨n, hrun⟩ := run_push_new values left hload
    refine ⟨_, _, (Prog.run_map exec _ _ _).trans (by rw [hrun]; rfl), ?_, ?_⟩
    · exact diskVersion_afterCreation w' (fieldPuts_records hk _) rfl
    · exact lrange_afterCreation hk hnew' (hne hcall) (hlen.trans (by norm_num)) left rfl
  | _ => cases hop

/-! ## Versions ahead of the disk -/

/-- The next version issued will be above every version on disk. -/
def World.Ahead (w : World) : Prop := ∀ v, OnDisk w.disk v → v < w.nextIssue

theorem onDisk_cleared {k : Bytes} {st st' : Store} (h : Cleared k st st') {v : UInt64}
    (hv : OnDisk st'.disk v) : OnDisk st.disk v := by
  rw [h.disk_eq] at hv
  exact onDisk_eraseMeta hv

/-- At any point of an operation the disk has the versions it had and, once one
is issued, that one. -/
theorem Stage.onDisk {k : Bytes} {w s : World} {ph : Phase} (h : Stage k w ph s) {v : UInt64}
    (hv : OnDisk s.disk v) : OnDisk w.disk v ∨ v = w.nextIssue ∧ s.versionClock = w.nextIssue := by
  have hremoved : ∀ {vs}, Removed k w vs s.toStore → OnDisk w.disk v := by
    rintro vs ⟨m, recs, hl, hr, hm, hst⟩
    rw [hst] at hv
    obtain hv | ⟨hne, rfl⟩ := onDisk_records hr (onDisk_eraseMeta hv)
    · exact hv
    · exact onDisk_of_live hl (hm hne)
  -- Until the last write the disk has lost records, but gained none.
  cases ph with
  | start => exact .inl ((show s = w from h) ▸ hv)
  | overwriting => exact .inl ((show s = w from h) ▸ hv)
  | loaded m => exact .inl (h.1 ▸ hv)
  | live m => exact .inl (h.2.2 ▸ hv)
  | expired m => exact .inl (h.2.2.2 ▸ hv)
  | dropping why =>
    cases why with
    | due =>
      rw [h.2.2] at hv
      exact .inl (onDisk_eraseMeta hv)
    | deleted => exact .inl (hremoved h.2)
    | emptied => exact .inl (hremoved h.2)
  | absent => exact .inl (onDisk_cleared h.2.2 hv)
  | issued u =>
    obtain ⟨-, -, st, hst, hs⟩ := h
    rw [hs] at hv
    exact .inl (onDisk_cleared hst hv)
  | created u =>
    obtain ⟨-, -, st, hst, hs⟩ := h
    rw [hs] at hv
    exact .inl (onDisk_cleared hst hv)
  | untracked =>
    rw [h.2] at hv
    exact .inl hv
  | untrackedIssued u =>
    rw [h.2] at hv
    exact .inl hv
  | emptying m =>
    obtain ⟨recs, hl, hr, hm, -, hs⟩ := h
    rw [hs] at hv
    obtain hv | ⟨-, rfl⟩ := onDisk_records hr hv
    · exact .inl hv
    · exact .inl (onDisk_of_live hl hm)
  | done =>
    obtain ⟨st, clock⟩ := s
    obtain ⟨hf, -⟩ := h
    cases hf with
    | updated hl hr hm ht hver =>
      obtain hv | ⟨hne, rfl⟩ | ⟨hc, rfl⟩ := onDisk_putMeta hr hv
      · exact .inl hv
      · exact .inl (onDisk_of_live hl (hm hne))
      · rw [Meta.composite, ht] at hc
        exact .inl (hver ▸ onDisk_of_live hl hc)
    | created hl hst hr hm hi he =>
      obtain hv | ⟨-, rfl⟩ | ⟨-, rfl⟩ := onDisk_putMeta hr hv
      · exact .inl (onDisk_cleared hst hv)
      · exact .inr ⟨hi, hi⟩
      · exact .inr ⟨hi, hi⟩
    | @string m hm =>
      obtain hv | ⟨hne, -⟩ | ⟨hc, -⟩ := onDisk_putMeta (Records.nil : Records k 0 []) hv
      · exact .inl hv
      · exact absurd rfl hne
      · rw [Meta.composite, hm] at hc
        cases hc
  | gone => exact .inl (hremoved h.2)
  | emptied => exact .inl (hremoved h.2)

/-- An operation leaves both clocks alone, or issues one version. -/
theorem Stage.clocks {k : Bytes} {w s : World} {ph : Phase} (h : Stage k w ph s) :
    s.nextIssue = w.nextIssue ∨ s.versionClock = w.nextIssue := by
  have hsame : s.micros = w.micros → s.versionClock = w.versionClock →
      s.nextIssue = w.nextIssue ∨ s.versionClock = w.nextIssue := fun hc hv =>
    .inl (nextIssue_congr hc hv)
  have hremoved : ∀ {vs}, Removed k w vs s.toStore → s.versionClock = w.versionClock := by
    rintro vs ⟨m, recs, -, -, -, hst⟩
    rw [hst]
  -- The phases from `issued` on have drawn a version.
  cases ph with
  | start => exact .inl ((show s = w from h) ▸ rfl)
  | overwriting => exact .inl ((show s = w from h) ▸ rfl)
  | loaded m => exact .inl (h.1 ▸ rfl)
  | live m => exact hsame h.2.1 (by rw [h.2.2])
  | expired m => exact hsame h.2.2.1 (by rw [h.2.2.2])
  | dropping why =>
    cases why with
    | due => exact hsame h.2.1 (by rw [h.2.2])
    | deleted => exact hsame h.1 (hremoved h.2)
    | emptied => exact hsame h.1 (hremoved h.2)
  | absent => exact hsame h.2.1 h.2.2.versionClock_eq
  | issued u =>
    obtain ⟨-, hu, st, -, hs⟩ := h
    exact .inr (by rw [hs]; exact hu)
  | created u =>
    obtain ⟨-, hu, st, -, hs⟩ := h
    exact .inr (by rw [hs]; exact hu)
  | untracked => exact hsame h.1 (by rw [h.2])
  | untrackedIssued u => exact .inr (by rw [h.2]; exact h.1)
  | emptying m =>
    obtain ⟨recs, -, -, -, hc, hs⟩ := h
    exact hsame hc (by rw [hs])
  | done =>
    obtain ⟨st, clock⟩ := s
    obtain ⟨hf, hc | hv⟩ := h
    · cases hf with
      | updated => exact hsame hc rfl
      | created hl hst hr hm hi he => exact .inr hi
      | string => exact .inr rfl
    · exact .inr hv
  | gone => exact hsame h.1 (hremoved h.2)
  | emptied => exact hsame h.1 (hremoved h.2)

theorem World.versionClock_succ_le (w : World) : w.versionClock + 1 ≤ w.nextIssue := by
  have hmax : w.nextIssue =
      if w.versionClock + 1 ≤ w.micros.head then w.micros.head else w.versionClock + 1 := rfl
  rw [hmax]
  split
  · assumption
  · exact UInt64.le_refl _

theorem Stage.ahead {k : Bytes} {w s : World} {ph : Phase} (h : Stage k w ph s)
    (hroom : w.nextIssue < w.nextIssue + 1) (hw : w.Ahead) : s.Ahead := by
  have hissued : s.versionClock = w.nextIssue → w.nextIssue < s.nextIssue := fun hc =>
    UInt64.lt_of_lt_of_le hroom (hc ▸ s.versionClock_succ_le)
  intro v hv
  obtain hv | ⟨rfl, hc⟩ := h.onDisk hv
  · obtain hn | hc := h.clocks
    · exact hn ▸ hw v hv
    · exact UInt64.lt_trans (hw v hv) (hissued hc)
  · exact hissued hc

/-- An operation leaves room for one more version, and a process starts with its
clock above the versions it finds. -/
def TimeMovesOn (w : World) : Event → Prop
  | .run _ | .failing _ _ => w.nextIssue < w.nextIssue + 1
  | .restart clock => (World.opened w.disk clock).Ahead

theorem ahead_flushed {w : World} : World.Ahead { w with disk := flushed w.disk, versions := ∅ } :=
  fun v hv => absurd hv (not_onDisk_flushed w.disk v)

theorem ahead_run {w : World} (op : Op) (hroom : w.nextIssue < w.nextIssue + 1) (hw : w.Ahead) :
    (op.run w).2.Ahead := by
  cases op with
  | keyed key op =>
    obtain ⟨ph, -, hs⟩ := op.run_stage key w
    exact hs.ahead hroom hw
  | dbsize => exact hw
  | rawSubkeyCount => exact hw
  | compact => exact fun v hv => hw v (onDisk_compact hv)
  | flushAll => exact ahead_flushed

theorem ahead_step {w : World} {e : Event} (he : TimeMovesOn w e) (hw : w.Ahead) :
    (e.apply w).Ahead := by
  cases e with
  | run op => exact ahead_run op he hw
  | restart clock => exact he
  | failing op n =>
    cases op with
    | keyed key op =>
      obtain ⟨ph, hs, -⟩ := (op.obeys key.2).runFailing (stage_sound key.1 w) isWrite
        (.backend "write failed") n (op.stage_begins key.1 w)
      exact hs.ahead he hw
    | dbsize => exact hw
    | rawSubkeyCount => exact hw
    | compact => exact ahead_run .compact he hw
    | flushAll =>
      cases n with
      | zero => exact hw
      | succ n => exact ahead_flushed

theorem World.Ahead.unused {w : World} (hw : w.Ahead) (k : Bytes) : Unused w.disk k w.nextIssue := by
  intro raw hraw
  by_contra hne
  have hmem : raw ∈ w.disk := by
    rw [ExtTreeMap.mem_iff_isSome_getElem?]
    exact Option.isSome_iff_ne_none.mpr hne
  exact UInt64.lt_irrefl _ (hw _ (.inr ⟨k, raw, hmem, hraw⟩))

/-- A creating operation gets a version that no record of its key carries, so
what is read right after is what it listed. -/
structure BuiltAnew (w : World) (key : Key) (op : KeyOp) : Prop where
  unused : ∀ raw ∈ w.disk, ¬ RecordOf key.1 w.nextIssue raw
  reads : ∃ reply s, (Op.keyed key op).run w = (.ok reply, s) ∧
    diskVersion s.disk key.1 = some w.nextIssue ∧ ReadsBack key.1 s op

/-- In every run in which each process starts with its clock above the versions
on disk, at every point where the key is missing or has expired. -/
theorem built_anew_of_time_moves_on (d : Disk) (clock : Clock) (es : List Event)
    (hopen : (World.opened d clock).Ahead) (hes : Steps TimeMovesOn (World.opened d clock) es)
    (key : Key) (op : KeyOp) (hop : op.creates) (hcall : op.wellCalled) (hlen : op.listed < 2 ^ 32)
    (habs : ((World.opened d clock).after es).Absent key.1) :
    BuiltAnew ((World.opened d clock).after es) key op := by
  have hunused := (hes.induction (fun w e => ahead_step) hopen).unused key.1
  refine ⟨fun raw hmem hraw => ?_, creation_reads_back key hop hcall hlen habs hunused⟩
  rw [ExtTreeMap.mem_iff_isSome_getElem?, hunused raw hraw] at hmem
  cases hmem

/-! ## The clock across a restart -/

instance (w : World) : Decidable w.Ahead :=
  decidable_of_iff ((entries w.disk).all (fun e => e.2 < w.nextIssue) ∧
      w.disk.toList.all fun r => (parseOwnerVersion r.1).all fun o => o.2 < w.nextIssue) <| by
    simp only [List.all_eq_true, Option.all_eq_true, decide_eq_true_eq, Prod.forall, mem_entries,
      ExtTreeMap.mem_toList_iff_getElem?_eq_some]
    constructor
    · rintro ⟨hmetas, hrecords⟩ v (⟨k, hk⟩ | ⟨k, raw, hmem, hraw⟩)
      · exact hmetas k v hk
      · rw [ExtTreeMap.mem_iff_isSome_getElem?, Option.isSome_iff_exists] at hmem
        obtain ⟨value, hvalue⟩ := hmem
        exact hrecords raw value hvalue k v hraw
    · intro h
      refine ⟨fun k v hk => h v (.inl ⟨k, hk⟩), fun raw value hvalue k v hraw => ?_⟩
      refine h v (.inr ⟨k, raw, ?_, hraw⟩)
      rw [ExtTreeMap.mem_iff_isSome_getElem?, hvalue]
      rfl

instance (w : World) : (e : Event) → Decidable (TimeMovesOn w e)
  | .run _ | .failing _ _ => inferInstanceAs (Decidable (w.nextIssue < w.nextIssue + 1))
  | .restart clock => inferInstanceAs (Decidable (World.opened w.disk clock).Ahead)

/-- A set is built and deleted, and the process restarted with the clock at `micros`. -/
def deletedThenRestarted (micros : UInt64) : List Event :=
  [.run (.keyed Key.k (.sadd [[120]])), .run (.keyed Key.k .del),
    .restart (stillClock 7 micros)]

theorem built_anew_deletedThenRestarted :
    Steps TimeMovesOn (World.opened ∅ (stillClock 7 5)) (deletedThenRestarted 9) ∧
      BuiltAnew ((World.opened ∅ (stillClock 7 5)).after (deletedThenRestarted 9)) Key.k
        (.hset [([102], [118])]) := by
  have hopen : (World.opened ∅ (stillClock 7 5)).Ahead := by decide +kernel
  have hes : Steps TimeMovesOn (World.opened ∅ (stillClock 7 5)) (deletedThenRestarted 9) := by
    decide +kernel
  exact ⟨hes, built_anew_of_time_moves_on ∅ (stillClock 7 5) _ hopen hes Key.k _ rfl rfl
    (by decide) (.inl (by decide +kernel))⟩

/-- With the clock standing still across the restart the new hash gets the version
of the deleted set, whose member is then read as one of its fields. -/
theorem not_built_anew_with_clock_standing_still :
    ((World.opened ∅ (stillClock 7 5)).after (deletedThenRestarted 5)).Absent [107] ∧
      ¬ BuiltAnew ((World.opened ∅ (stillClock 7 5)).after (deletedThenRestarted 5)) Key.k
        (.hset [([102], [118])]) := by
  refine ⟨.inl (by decide +kernel), fun h => ?_⟩
  obtain ⟨reply, s, hrun, -, l, hl, -, hmem⟩ := h.reads
  have hlist : ((hgetall Key.k.1).run exec ((Op.keyed Key.k (.hset [([102], [118])])).run
      ((World.opened ∅ (stillClock 7 5)).after (deletedThenRestarted 5))).2).1 =
      .ok [([102], [118]), ([120], [])] := by decide +kernel
  rw [hrun, hl] at hlist
  obtain rfl := Except.ok.inj hlist
  exact absurd ((hmem [120] []).mp (by simp)) (by decide)

end GameStore
