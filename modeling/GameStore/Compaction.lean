import GameStore.Shadow

/-!
# Compaction is invisible

Two copies of a store run the same operations, one of them compacted between any
two calls. `Shadow` holds between them at every point of an operation, and what an
operation reads is never collectable.
-/

namespace GameStore

open Lib Std

/-! ## One operation -/

/-- A version issued to an operation that has not written under it yet. -/
def Phase.newVersion : Phase → Option UInt64
  | .issued v | .created v => some v
  | _ => none

/-- An operation on `k` that started in `w₀`, running in `s` alone and in `t`
with compactions. -/
structure Twin (old : UInt64 → Prop) (k : Bytes) (w₀ : World) (ph : Phase) (s t : World) : Prop where
  stage : Stage k w₀ ph s
  shadow : Shadow s t
  bounded : Bounded old s.toStore
  fresh : ∀ v, ph.newVersion = some v →
    v ≤ s.versionClock ∧ ∀ raw, RecordOf k v raw → s.disk[raw]? = none

section Twin

variable {old : UInt64 → Prop} {k : Bytes} {w₀ s t : World} {ph ph' : Phase}

/-- What an operation reads under live metadata is never collectable. -/
theorem shouldKeep_of_live {m : Meta} (hw : w₀.Agrees) (hs : s.toStore = w₀.toStore)
    (hlive : w₀.liveMeta k = some m) (hm : m.composite) {raw : Bytes} (hraw : RecordOf k m.version raw) :
    shouldKeep s.versions raw = true := by
  rw [hs]
  have hv : diskVersion w₀.disk k = some m.version := by
    rw [diskVersion_of_liveMeta hlive, if_pos hm]
  exact ((liveKept_iff_agrees.mpr hw) k m.version hv).2 raw hraw

/-- Both states give the listed calls the same answer. -/
theorem Twin.answer {o : Call} {a : o.Ans} (hk : k.length < 2 ^ 32) (hw : w₀.Agrees)
    (h : Twin old k w₀ ph s t) (hmove : Move k ph o a ph') : (exec o t).1 = (exec o s).1 := by
  have hmeta : t.disk[metaKey k]? = s.disk[metaKey k]? :=
    h.shadow.getElem?_kept (by simp [shouldKeep])
  have hnow : t.ms.head = s.ms.head := by rw [h.shadow.clock]
  cases hmove with
  | missing => exact hmeta
  | undecodable hd => exact hmeta
  | load hd he => exact hmeta
  | loadDue hd he => exact hmeta
  | inTime hn => exact hnow
  | due he hn => exact hnow
  | tick => exact hnow
  | issue => exact h.shadow.nextIssue_eq
  | issueString => exact h.shadow.nextIssue_eq
  | read hm hraw =>
    obtain ⟨hlive, -, hs⟩ := h.stage
    exact h.shadow.getElem?_kept (shouldKeep_of_live hw hs hlive hm hraw)
  | readNew hraw =>
    have hnone := (h.fresh _ rfl).2 _ hraw
    exact (h.shadow.getElem?_none hnone).trans hnone.symm
  | scan hm hp =>
    obtain ⟨hlive, -, hs⟩ := h.stage
    refine prefixScan_congr fun raw hpre => h.shadow.getElem?_kept ?_
    refine shouldKeep_of_live hw hs hlive hm (parseOwnerVersion_eq_some.mpr ⟨hk, ?_⟩)
    obtain rfl | rfl := hp
    · exact .inl hpre
    · exact .inr hpre
  | _ => rfl

theorem Twin.shadow_move {o : Call} {a : o.Ans} (h : Twin old k w₀ ph s t)
    (hmove : Move k ph o a ph') : Shadow (exec o s).2 (exec o t).2 := by
  cases hmove with
  | inTime hn => exact h.shadow.nowMs
  | due he hn => exact h.shadow.nowMs
  | tick => exact h.shadow.nowMs
  | issue => exact h.shadow.nextVersion
  | issueString => exact h.shadow.nextVersion
  | drop => exact h.shadow.versionsRemove k
  | untrack => exact h.shadow.versionsRemove k
  | register => exact h.shadow.versionsSet (h.fresh _ rfl).2
  | expire => exact h.shadow.write _
  | update hr hm ht hv => exact h.shadow.write _
  | delete => exact h.shadow.write _
  | strip hr hm => exact h.shadow.write _
  | deleteEmptied => exact h.shadow.write _
  | writeNew hr hm hv he => exact h.shadow.write _
  | writeString hm => exact h.shadow.write _
  | _ => exact h.shadow

theorem Twin.bounded_move {o : Call} {a : o.Ans} (h : Twin old k w₀ ph s t) (hgood : Rising old o s)
    (hmove : Move k ph o a ph') : Bounded old (exec o s).2.toStore := by
  have hb := h.bounded
  have hissue : Rising old .nextVersion s → Bounded old (exec .nextVersion s).2.toStore :=
    fun hr v hv => (hb v hv).imp id fun hle => UInt64.le_trans hle (UInt64.le_of_lt hr.1)
  have herase : Bounded old (exec (.write [.delete (metaKey k)]) s).2.toStore :=
    fun v hv => hb v (onDisk_eraseMeta hv)
  cases hmove with
  | issue => exact hissue hgood
  | issueString => exact hissue hgood
  | expire => exact herase
  | delete => exact herase
  | deleteEmptied => exact herase
  | @update m m' recs hr hm ht hv =>
    intro v hd
    obtain ⟨hlive, -, hs⟩ := h.stage
    have hlive' : m.composite → OnDisk s.disk m.version := fun hc => hs ▸ onDisk_of_live hlive hc
    obtain hd | ⟨hne, rfl⟩ | ⟨hc, rfl⟩ := onDisk_putMeta hr hd
    · exact hb v hd
    · exact hb _ (hlive' (hm hne))
    · rw [hv]
      refine hb _ (hlive' ?_)
      rwa [Meta.composite, ht] at hc
  | @strip m recs hr hm =>
    intro v hd
    obtain ⟨hlive, -, hs⟩ := h.stage
    obtain hd | ⟨-, rfl⟩ := onDisk_records hr hd
    · exact hb v hd
    · exact hb _ (hs ▸ onDisk_of_live hlive hm)
  | writeNew hr hm hv he =>
    intro v hd
    have hle := (h.fresh _ rfl).1
    obtain hd | ⟨-, rfl⟩ | ⟨-, rfl⟩ := onDisk_putMeta hr hd
    · exact hb v hd
    · exact .inr hle
    · exact .inr (hv ▸ hle)
  | @writeString v m hm =>
    intro u hd
    obtain hd | ⟨hne, -⟩ | ⟨hc, -⟩ := onDisk_putMeta (Records.nil : Records k v []) hd
    · exact hb u hd
    · exact absurd rfl hne
    · simp [Meta.composite, hm, TYPE_STRING, TYPE_HASH, TYPE_SET, TYPE_ZSET, TYPE_LIST] at hc
  | _ => exact hb

theorem Twin.fresh_move {o : Call} {a : o.Ans} (h : Twin old k w₀ ph s t) (hgood : Rising old o s)
    (hmove : Move k ph o a ph') (ha : a = (exec o s).1) : ∀ v, ph'.newVersion = some v →
      v ≤ (exec o s).2.versionClock ∧ ∀ raw, RecordOf k v raw → (exec o s).2.disk[raw]? = none := by
  intro v hv
  cases hmove with
  | issue =>
    obtain rfl : _ = v := Option.some.inj hv
    subst ha
    refine ⟨UInt64.le_refl _, fun raw hraw => ?_⟩
    rw [Option.eq_none_iff_forall_ne_some]
    intro value hvalue
    refine h.bounded.not_onDisk hgood (.inr ⟨k, raw, ?_, hraw⟩)
    rw [ExtTreeMap.mem_iff_isSome_getElem?]
    exact Option.isSome_iff_exists.mpr ⟨value, hvalue⟩
  | register => exact h.fresh v hv
  | readNew hk => exact h.fresh v hv
  | @drop why => cases why <;> cases hv
  | _ => cases hv

/-- The simulation, for one operation on one key. -/
theorem KeyOp.runEnv_eq (key : Key) (op : KeyOp) (sel : Schedule) {s t : World} (hs : s.Agrees)
    (hst : Shadow s t) (hb : Bounded old s.toStore)
    (hgood : (op.prog key.1).Always exec (Rising old) s) :
    ((op.prog key.1).runEnv exec sel.env t).1 = ((op.prog key.1).run exec s).1 ∧
      Shadow ((op.prog key.1).run exec s).2 ((op.prog key.1).runEnv exec sel.env t).2 ∧
      Bounded old ((op.prog key.1).run exec s).2.toStore := by
  have hobeys : Obeys True key.1 (Settles (op.allowed True)) op.begins (op.prog key.1) := op.obeys key.2
  have hbegin : Twin old key.1 s op.begins s t :=
    ⟨op.stage_begins key.1 s, hst, hb, by cases op <;> exact fun _ h => nomatch h⟩
  suffices hsim : ((op.prog key.1).runEnv exec sel.env t).1 = ((op.prog key.1).run exec s).1 ∧
      ∃ ph, Settles (op.allowed True) ((op.prog key.1).run exec s).1 ph ∧
        Twin old key.1 s ph ((op.prog key.1).run exec s).2 ((op.prog key.1).runEnv exec sel.env t).2 by
    obtain ⟨he, ph, -, htwin⟩ := hsim
    exact ⟨he, htwin.shadow, htwin.bounded⟩
  refine hobeys.runEnv ?_ ?_ ?_ hgood hbegin
  · intro ph s' t' o htwin
    cases o with
    | get raw =>
      rintro v rfl - hraw
      exact (htwin.fresh v rfl).2 raw hraw
    | _ => trivial
  · intro ph s' t' o ph' htwin hgood hmove
    exact ⟨htwin.answer key.2 hs hmove, stage_move hmove rfl htwin.stage, htwin.shadow_move hmove,
      htwin.bounded_move hgood hmove, htwin.fresh_move hgood hmove rfl⟩
  · intro n ph s' t' htwin
    exact ⟨htwin.stage, htwin.shadow.compact _, htwin.bounded, htwin.fresh⟩

end Twin

/-! ## The operations on the whole store -/

theorem Shadow.versionsClear {s t : World} (h : Shadow s t) :
    Shadow (exec .versionsClear s).2 (exec .versionsClear t).2 where
  versions := rfl
  versionClock := h.versionClock
  clock := h.clock
  installed := h.installed
  disk raw := by
    refine (h.disk raw).imp id fun hd => ⟨hd.1, ?_⟩
    change shouldKeep ∅ raw = false
    rw [← Bool.not_eq_true, shouldKeep_eq_true] at hd ⊢
    refine fun hk => hd.2 fun k v hraw => ?_
    simpa using hk k v hraw

theorem Shadow.replaceDisk {s t : World} (h : Shadow s t) {d d' : Disk}
    (hd : ∀ raw : Bytes, d'[raw]? = d[raw]?) : Shadow { s with disk := d } { t with disk := d' } where
  versions := h.versions
  versionClock := h.versionClock
  clock := h.clock
  installed := h.installed
  disk raw := .inl (hd raw)

theorem shouldKeep_of_not_stored {versions : VersionMap} {raw : Bytes} (h : ¬ Stored raw) :
    shouldKeep versions raw = true := by
  rw [shouldKeep_eq_true]
  exact fun k v hraw => absurd (RecordOf.stored hraw) h

theorem flushAll_runEnv (sel : Schedule) {s t : World} (h : Shadow s t) :
    (flushAll.runEnv exec sel.env t).1 = (flushAll.run exec s).1 ∧
      Shadow (flushAll.run exec s).2 (flushAll.runEnv exec sel.env t).2 := by
  -- The copy before each of the three scans and before the write.
  let t₁ := t.compact (sel.get 0)
  let t₂ := t₁.compact (sel.get 1)
  let t₃ := t₂.compact (sel.get 2)
  let t₄ := t₃.compact (sel.get 3)
  have h₄ : Shadow s t₄ :=
    (((h.compact (sel.get 0)).compact (sel.get 1)).compact (sel.get 2)).compact (sel.get 3)
  let items := prefixScan t₁.disk [META_PREFIX] ++ prefixScan t₂.disk [SUBKEY_PREFIX] ++
    prefixScan t₃.disk [ZSCORE_PREFIX]
  have hitems : ∀ raw, raw ∈ t₄.disk → (raw ∈ items.map Prod.fst ↔ Stored raw) := by
    intro raw h₄
    have h₃ : raw ∈ t₃.disk := mem_compact h₄
    have h₂ : raw ∈ t₂.disk := mem_compact h₃
    have h₁ : raw ∈ t₁.disk := mem_compact h₂
    simp only [items, List.map_append, List.mem_append, mem_map_fst_prefixScan, Stored, h₁, h₂, h₃,
      true_and, or_assoc]
  have hdisk : ∀ raw : Bytes, (applyBatch t₄.disk (items.map fun item => .delete item.1))[raw]? =
      (flushed s.disk)[raw]? := by
    intro raw
    rw [getElem?_flushed, getElem?_deleteAll]
    by_cases hraw : raw ∈ t₄.disk
    · simp only [hitems raw hraw]
      split
      · rfl
      · exact h₄.getElem?_kept (shouldKeep_of_not_stored ‹_›)
    · rw [ExtTreeMap.getElem?_eq_none hraw, ite_self]
      split
      · rfl
      · rename_i hs
        rw [← h₄.getElem?_kept (shouldKeep_of_not_stored hs), ExtTreeMap.getElem?_eq_none hraw]
  have hflush := h₄.replaceDisk hdisk
  have hrun : flushAll.runEnv exec sel.env t = (.ok (), ((exec .versionsClear
      (World.compact (sel.get 4) { t₄ with
        disk := applyBatch t₄.disk (items.map fun item => .delete item.1) })).2).compact (sel.get 5)) :=
    rfl
  rw [hrun, run_flushAll]
  exact ⟨rfl, (hflush.compact (sel.get 4)).versionsClear.compact (sel.get 5)⟩

theorem compact_runEnv (sel : Schedule) {s t : World} (h : Shadow s t) :
    (compact.runEnv exec sel.env t).1 = (compact.run exec s).1 ∧
      Shadow (compact.run exec s).2 (compact.runEnv exec sel.env t).2 := by
  have h₀ := h.compact (sel.get 0)
  have hboth : Shadow (s.compact fun _ => true) ((t.compact (sel.get 0)).compact fun _ => true) := by
    refine ⟨h₀.versions, h₀.versionClock, h₀.clock, h₀.installed, fun raw => .inl ?_⟩
    have hs : (s.compact fun _ => true).disk[raw]? =
        if !s.filterKeeps raw then none else s.disk[raw]? := getElem?_compact _ s.toStore raw
    have ht : ((t.compact (sel.get 0)).compact fun _ => true).disk[raw]? =
        if !s.filterKeeps raw then none else (t.compact (sel.get 0)).disk[raw]? := by
      have hkeep : (t.compact (sel.get 0)).filterKeeps raw = s.filterKeeps raw := by
        simp [Store.filterKeeps, h₀.installed, h₀.versions]
      rw [← hkeep]
      exact getElem?_compact _ (t.compact (sel.get 0)).toStore raw
    rw [hs, ht]
    cases hk : s.filterKeeps raw with
    | false => rfl
    | true =>
      refine h₀.getElem?_kept ?_
      simpa [Store.filterKeeps, h.installed] using hk
  exact ⟨rfl, hboth.compact (sel.get 1)⟩

theorem Op.runEnv_eq {old : UInt64 → Prop} (op : Op) (sel : Schedule) {s t : World} (hs : s.Agrees)
    (hst : Shadow s t) (hb : Bounded old s.toStore) (hgood : op.prog.Always exec (Rising old) s) :
    (op ≠ .rawSubkeyCount → (op.prog.runEnv exec sel.env t).1 = (op.run s).1) ∧
      Shadow (op.run s).2 (op.prog.runEnv exec sel.env t).2 ∧ Bounded old (op.run s).2.toStore := by
  cases op with
  | keyed key op =>
    obtain ⟨he, h⟩ := op.runEnv_eq key sel hs hst hb hgood
    exact ⟨fun _ => he, h⟩
  | dbsize =>
    have hscan : prefixScan (t.compact (sel.get 0)).disk [META_PREFIX] =
        prefixScan s.disk [META_PREFIX] := by
      apply prefixScan_congr
      rintro _ ⟨k, rfl⟩
      exact (hst.compact (sel.get 0)).getElem?_kept (by simp [shouldKeep, parseOwnerVersion, META_PREFIX,
        SUBKEY_PREFIX, ZSCORE_PREFIX])
    refine ⟨fun _ => ?_, (hst.compact (sel.get 0)).compact (sel.get 1), hb⟩
    exact congrArg (fun l : List (Bytes × Bytes) => Except.ok (Reply.int l.length)) hscan
  | rawSubkeyCount =>
    exact ⟨fun h => absurd rfl h,
      ((hst.compact (sel.get 0)).compact (sel.get 1)).compact (sel.get 2), hb⟩
  | compact =>
    obtain ⟨he, h⟩ := compact_runEnv sel hst
    simp only [Op.run, Op.prog, Prog.runEnv_map, Prog.run_map, he]
    exact ⟨fun _ => trivial, h, fun v hv => hb v (onDisk_compact hv)⟩
  | flushAll =>
    obtain ⟨he, h⟩ := flushAll_runEnv sel hst
    simp only [Op.run, Op.prog, Prog.runEnv_map, Prog.run_map, he]
    refine ⟨fun _ => trivial, h, fun v hv => ?_⟩
    rw [run_flushAll] at hv
    exact absurd hv (not_onDisk_flushed s.disk v)

/-! ## Runs of operations -/

def results : List Op → World → List (Except EngineError Reply)
  | [], _ => []
  | op :: ops, w => (op.run w).1 :: results ops (op.run w).2

/-- The same with compactions before every call of every operation and after its
last one. -/
def resultsCompacting : List (Op × Schedule) → World → List (Except EngineError Reply)
  | [], _ => []
  | (op, sel) :: steps, w =>
    (op.prog.runEnv exec sel.env w).1 ::
      resultsCompacting steps (op.prog.runEnv exec sel.env w).2

/-- Every call the operations make (without compaction) is made where `good` holds. -/
def Throughout (good : Call → World → Prop) : List Op → World → Prop
  | [], _ => True
  | op :: ops, w => op.prog.Always exec good w ∧ Throughout good ops (op.run w).2

theorem results_agree {old : UInt64 → Prop} {steps : List (Op × Schedule)} {s t : World}
    (hs : s.Agrees) (hst : Shadow s t) (hb : Bounded old s.toStore)
    (hgood : Throughout (Rising old) (steps.map Prod.fst) s) (i : ℕ) {op : Op} {sel : Schedule}
    (hi : steps[i]? = some (op, sel)) (hop : op ≠ .rawSubkeyCount) :
    (resultsCompacting steps t)[i]? = (results (steps.map Prod.fst) s)[i]? := by
  induction steps generalizing s t i with
  | nil => cases hi
  | cons step steps ih =>
    obtain ⟨op', sel'⟩ := step
    obtain ⟨he, hst', hb'⟩ := op'.runEnv_eq sel' hs hst hb hgood.1
    cases i with
    | zero =>
      obtain ⟨rfl, rfl⟩ : op' = op ∧ sel' = sel := by simpa using hi
      exact congrArg some (he hop)
    | succ i => exact ih (agrees_run hs op') hst' hb' hgood.2 i hi

/-- On an opened store, if every version issued is above the versions found at
opening and those issued before, no reply but `raw_subkey_count`'s tells whether
the store was compacted underneath. -/
theorem compaction_invisible (d : Disk) (clock : Clock) (steps : List (Op × Schedule))
    (hrise : Throughout (Rising (OnDisk d)) (steps.map Prod.fst) (World.opened d clock)) (i : ℕ)
    (op : Op) (sel : Schedule) (hi : steps[i]? = some (op, sel)) (hop : op ≠ .rawSubkeyCount) :
    (resultsCompacting steps (World.opened d clock))[i]? =
      (results (steps.map Prod.fst) (World.opened d clock))[i]? := by
  have hagrees : (World.opened d clock).Agrees := fun k v hv => (exact_opened d clock k).trans hv
  have hself : Shadow (World.opened d clock) (World.opened d clock) :=
    ⟨rfl, rfl, rfl, by simp [opened_eq], fun _ => .inl rfl⟩
  have hbound : Bounded (OnDisk d) (World.opened d clock).toStore := by
    intro v hv
    rw [opened_eq] at hv
    exact .inl hv
  exact results_agree hagrees hself hbound hrise i hi hop

instance Throughout.decidable {good : Call → World → Prop} [∀ o w, Decidable (good o w)] :
    ∀ ops w, Decidable (Throughout good ops w)
  | [], _ => inferInstanceAs (Decidable True)
  | op :: ops, w =>
    have : Decidable (Throughout good ops (op.run w).2) := Throughout.decidable ops _
    inferInstanceAs (Decidable (op.prog.Always exec good w ∧ Throughout good ops (op.run w).2))

theorem Throughout.imp {good good' : Call → World → Prop} (hg : ∀ o w, good o w → good' o w) {ops : List Op}
    {w : World} (h : Throughout good ops w) : Throughout good' ops w := by
  induction ops generalizing w with
  | nil => trivial
  | cons op ops ih => exact ⟨h.1.imp exec hg, ih h.2⟩

/-- The version issued now, if the call issues one, is above the last one. -/
def Call.issuesAbove (w : World) : Call → Bool
  | .nextVersion => decide (w.versionClock < w.nextIssue)
  | _ => true

/-- A hash is built, deleted, built again and read, and every gap compacts
everything it may. -/
def rebuiltHash : List (Op × Schedule) :=
  [(.keyed Key.k (.hset [([102], [118])]), fun _ _ => true),
    (.keyed Key.k .del, fun _ _ => true),
    (.keyed Key.k (.hset [([103], [119])]), fun _ _ => true),
    (.keyed Key.k .hgetall, fun _ _ => true)]

theorem compaction_invisible_rebuiltHash :
    Throughout (Rising (OnDisk ∅)) (rebuiltHash.map Prod.fst) (World.opened ∅ (stillClock 7 5)) ∧
      (resultsCompacting rebuiltHash (World.opened ∅ (stillClock 7 5)))[3]? =
        (results (rebuiltHash.map Prod.fst) (World.opened ∅ (stillClock 7 5)))[3]? := by
  have hdec : Throughout (fun o w => o.issuesAbove w) (rebuiltHash.map Prod.fst)
      (World.opened ∅ (stillClock 7 5)) := by decide +kernel
  have hrise : Throughout (Rising (OnDisk ∅)) (rebuiltHash.map Prod.fst)
      (World.opened ∅ (stillClock 7 5)) := by
    refine hdec.imp fun o w h => ?_
    cases o with
    | nextVersion => exact ⟨of_decide_eq_true h, fun v hv => absurd hv (not_onDisk_empty v)⟩
    | _ => trivial
  exact ⟨hrise, compaction_invisible ∅ (stillClock 7 5) rebuiltHash hrise 3
    (.keyed Key.k .hgetall) (fun _ _ => true) rfl nofun⟩

end GameStore
