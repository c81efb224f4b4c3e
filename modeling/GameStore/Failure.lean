import GameStore.Garbage

/-!
# Failing writes

A write that answers an error ends the operation where it stands. Every operation
but one has the map in step with the disk whenever it is about to write; `set`
drops the map entry first.
-/

namespace GameStore

open Lib Std

theorem Stage.agrees {k : Bytes} {w s : World} {ph : Phase} (h : Stage k w ph s)
    (hph : ¬ ph.overwrites) (hw : w.Agrees) : s.Agrees := by
  have hrefl : ∀ (a : Option UInt64) (v : UInt64), a = some v → a = some v := fun _ _ => id
  have hgone : ∀ {st : Store} {recs : WriteBatch} {v : UInt64}, Records k v recs →
      st.versions = w.versions → st.disk = (applyBatch w.disk recs).erase (metaKey k) →
      st.Agrees := by
    intro st recs v hr hv hd k'
    rw [hv, hd, diskVersion_eraseMeta hr]
    split
    · exact fun _ h => nomatch h
    · exact hw k'
  cases ph with
  | start => exact (show s = w from h) ▸ hw
  | loaded m => exact h.1 ▸ hw
  | live m =>
    rw [h.2.2]
    exact hw
  | expired m =>
    rw [h.2.2.2]
    exact hw
  | dropping why =>
    cases why with
    | due =>
      rw [h.2.2]
      exact hgone (Records.nil : Records k 0 []) rfl rfl
    | deleted =>
      obtain ⟨-, m, recs, -, hr, -, hs⟩ := h
      rw [hs]
      exact hgone hr rfl rfl
    | emptied =>
      obtain ⟨-, m, recs, -, hr, -, hs⟩ := h
      rw [hs]
      exact hgone hr rfl rfl
  | absent => exact h.2.2.tied hrefl hw
  | issued v =>
    obtain ⟨-, -, st, hst, hs⟩ := h
    rw [hs]
    exact hst.tied hrefl hw
  | created v =>
    obtain ⟨-, -, st, hst, hs⟩ := h
    rw [hs]
    intro k'
    simp only [getElem?_insert_bytes]
    split
    · rename_i hk
      rw [← hk, diskVersion_of_missing hst.getElem?_metaKey]
      exact fun _ h => nomatch h
    · exact hst.tied hrefl hw k'
  | emptying m =>
    obtain ⟨recs, -, hr, -, -, hs⟩ := h
    rw [hs]
    intro k'
    rw [diskVersion_congr (hr.getElem?_metaKey w.disk k')]
    exact hw k'
  | done => exact h.1.tied hrefl hw
  | gone => exact h.2.tied hrefl hw
  | emptied => exact h.2.tied hrefl hw
  | overwriting => exact absurd trivial hph
  | untracked => exact absurd trivial hph
  | untrackedIssued v => exact absurd trivial hph

/-- A `set` whose write fails, over a key that holds a composite value. -/
def FailsOverComposite (w : World) : Event → Prop
  | .failing (.keyed key (.set _ _)) 0 => diskVersion w.disk key.1 ≠ none
  | _ => False

theorem agrees_failing {w : World} (hw : w.Agrees) (key : Key) (op : KeyOp) (n : ℕ)
    (hop : ¬ op.begins.overwrites) : ((Op.keyed key op).runFailing n w).2.Agrees := by
  have hs := (stage_sound key.1 w).and_ghost (φ := fun ph => ¬ ph.overwrites)
    fun _ _ _ _ hmove => hmove.not_overwrites
  obtain ⟨ph, ⟨hst, hph⟩, -⟩ := (op.obeys key.2).runFailing hs isWrite (.backend "write failed") n
    ⟨op.stage_begins key.1 w, hop⟩
  exact hst.agrees hph hw

theorem agrees_run {w : World} (hw : w.Agrees) (op : Op) : (op.run w).2.Agrees := by
  cases op with
  | keyed key op =>
    obtain ⟨ph, hph, hs⟩ := op.run_stage key w
    refine hs.agrees ?_ hw
    cases ph <;> first | exact id | exact hph.elim
  | dbsize => exact hw
  | rawSubkeyCount => exact hw
  | compact =>
    intro k
    change ∀ v, diskVersion (w.toStore.compact _).disk k = some v → w.versions[k]? = some v
    rw [diskVersion_compact]
    exact hw k
  | flushAll =>
    intro k v hv
    exact nomatch (diskVersion_flushed w.disk k).symm.trans hv

/-- `set` has one write, so only its first can fail. -/
theorem agrees_failing_set {w : World} (hw : w.Agrees) (key : Key) (value : Bytes) (expireMs : UInt64)
    (n : ℕ) (h : ¬ FailsOverComposite w (.failing (.keyed key (.set value expireMs)) n)) :
    ((Op.keyed key (.set value expireMs)).runFailing n w).2.Agrees := by
  cases n with
  | zero =>
    intro k
    change ∀ v, diskVersion w.disk k = some v → (w.versions.erase key.1)[k]? = some v
    rw [getElem?_erase_bytes]
    split
    · rename_i hk
      rw [← hk, not_not.mp h]
      exact fun _ h => nomatch h
    · exact hw k
  | succ n => exact agrees_run hw (.keyed key (.set value expireMs))

theorem agrees_step {w : World} {e : Event} (he : ¬ FailsOverComposite w e) (hw : w.Agrees) :
    (e.apply w).Agrees := by
  cases e with
  | run op => exact agrees_run hw op
  | restart clock =>
    intro k v hv
    exact (exact_opened w.disk clock k).trans hv
  | failing op n =>
    cases op with
    | keyed key op =>
      cases op with
      | set value expireMs => exact agrees_failing_set hw key value expireMs n he
      | _ => exact agrees_failing hw key _ n id
    | dbsize => exact hw
    | rawSubkeyCount => exact hw
    | compact => exact agrees_run hw .compact
    | flushAll =>
      cases n with
      | zero => exact hw
      | succ n => exact agrees_run hw .flushAll

/-- A `set` that fails over a composite key leaves its elements collectable. -/
theorem not_agrees_of_failsOverComposite {w : World} {e : Event} (he : FailsOverComposite w e) :
    ¬ (e.apply w).Agrees := by
  match e with
  | .failing (.keyed key (.set value expireMs)) 0 =>
    obtain ⟨v, hv⟩ := Option.ne_none_iff_exists'.mp he
    intro h
    have herase : (w.versions.erase key.1)[key.1]? = some v := h key.1 v hv
    rw [getElem?_erase_bytes, if_pos rfl] at herase
    cases herase

/-- Every composite key on disk is in the map with its version, so the filter
keeps all of its records. -/
def LiveKept (w : World) : Prop :=
  ∀ k v, diskVersion w.disk k = some v →
    w.versions[k]? = some v ∧ ∀ raw, RecordOf k v raw → shouldKeep w.versions raw = true

theorem liveKept_iff_agrees {w : World} : LiveKept w ↔ w.Agrees := by
  refine ⟨fun h k v hv => (h k v hv).1, fun h k v hv => ⟨h k v hv, fun raw hraw => ?_⟩⟩
  rw [shouldKeep_eq_true]
  intro k' v' hraw'
  obtain ⟨rfl, rfl⟩ : k = k' ∧ v = v' := by simpa using hraw.symm.trans hraw'
  exact h k v hv

/-- Over whole runs with restarts and with failing writes anywhere, live data is
collectable at some point exactly when some `set` fails over a composite key. -/
theorem live_kept_iff_no_failed_overwrite (d : Disk) (clock : Clock) (es : List Event) :
    (∀ es', es' <+: es → LiveKept ((World.opened d clock).after es')) ↔
      Steps (fun w e => ¬ FailsOverComposite w e) (World.opened d clock) es := by
  have hstart : (World.opened d clock).Agrees := fun k v hv => (exact_opened d clock k).trans hv
  simp only [liveKept_iff_agrees]
  generalize World.opened d clock = w at hstart
  induction es generalizing w with
  | nil =>
    refine ⟨fun _ => trivial, fun _ es' hes' => ?_⟩
    rw [List.prefix_nil.mp hes']
    exact hstart
  | cons e es ih =>
    constructor
    · intro h
      have he : ¬ FailsOverComposite w e := fun hf =>
        not_agrees_of_failsOverComposite hf (h [e] (by simp))
      refine ⟨he, (ih (e.apply w) (agrees_step he hstart)).mp fun es' hes' => ?_⟩
      exact h (e :: es') (List.cons_prefix_cons.mpr ⟨rfl, hes'⟩)
    · rintro ⟨he, hes⟩ es' hes'
      cases es' with
      | nil => exact hstart
      | cons e' es' =>
        obtain ⟨rfl, hrest⟩ := List.cons_prefix_cons.mp hes'
        exact (ih _ (agrees_step he hstart)).mpr hes es' hrest

/-- `set` over a hash, its one write failing. -/
theorem live_not_kept_after_failed_set :
    ¬ LiveKept ((World.opened ∅ (stillClock 7 5)).after
      [.run (.keyed Key.k (.hset [([102], [118])])),
        .failing (.keyed Key.k (.set [119] 0)) 0]) := by
  intro h
  exact absurd (h [107] 5 (by decide +kernel)).1 (by decide +kernel)

end GameStore
