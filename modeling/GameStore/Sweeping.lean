import GameStore.Tracking
import GameStore.Isolation

/-!
# A read beside a write

A read deletes the metadata it has found expired, and then drops the map entry,
without looking again. What another client has put there meanwhile goes with it,
and only then is such a write lost.
-/

namespace GameStore

open Lib Std

/-- The call takes away a record or a map entry that the other call has put. -/
def Call.undoes : Call → Call → Bool
  | .write b, .write b' => b'.any fun op' => op'.value.isSome && b.any fun op => op.key == op'.key
  | .versionsRemove k, .versionsSet k' _ => k == k'
  | _, _ => false

/-- What the client `true` has written is on disk, the version it has registered is in the
map, and the map tells the version of the key. -/
structure Survives (k : Bytes) (c : Two Call Call.Ans EngineError Reply Clock Store) : Prop where
  records : ∀ b, .write b ∈ (c.proc true).made → ∀ raw value : Bytes,
    (applyBatch ∅ b)[raw]? = some value → c.shared.disk[raw]? = some value
  registered : ∀ v, .versionsSet k v ∈ (c.proc true).made → c.shared.versions[k]? = some v
  tracked : TrackedAt k c.shared

/-- No deletion of the client `false` comes after what it would undo. -/
def SweepsInTime (key : Key) (op : Bool → KeyOp) (clock : Bool → Clock) (s : Store) (sched : List Bool) :
    Prop :=
  Meets (Two.step execOn) (Two.Ahead (fun o o' => o.undoes o' = true) false)
    (Two.begin clock (fun b => (op b).prog key.1) s) sched

/-! ## The read -/

/-- The calls of a read. -/
def ReadCall (k : Bytes) : Call → Prop
  | .get _ | .scanPrefix _ | .nowMs => True
  | .write b => b = [.delete (metaKey k)]
  | .versionsRemove key => key = k
  | _ => False

theorem Move.readCall {k : Bytes} {ph ph' : Phase} {o : Call} {a : o.Ans} (h : Move k ph o a ph')
    (hph' : ph'.reading) : ReadCall k o := by
  cases h <;> trivial

theorem KeyOp.only_readCall (key : Key) {op : KeyOp} (hop : op.isRead) : (op.prog key.1).Only (ReadCall key.1) := by
  have hobeys : Obeys False key.1 (Settles (op.allowed False)) op.begins (op.prog key.1) := op.obeys key.2
  have hwrites : ¬ (op.allowed False).writes := fun h => by
    have hcontra := hop.symm.trans h
    cases hcontra
  have hempties : ¬ (op.allowed False).empties := by
    cases op <;> first | exact id | cases hop
  have hleaves : ¬ (op.allowed False).leaves := by
    cases op <;> first | exact id | cases hop
  have : ∀ o : Call, Nonempty o.Ans := Call.ans_nonempty
  have hreads := hobeys.within (I := Phase.reading) fun ph p =>
    not_obeys_of_not_reading hwrites hempties hleaves ph p
  exact hreads.only (possible_of_not_fresh key.1) fun ph o a ph' ⟨hmove, hread⟩ => hmove.readCall hread

/-- The next call of a read leaves the store, deletes the metadata or drops the map entry. -/
theorem read_turn {k : Bytes} {c : Two Call Call.Ans EngineError Reply Clock Store}
    (h : (c.proc false).rest.Only (ReadCall k)) :
    ((c.step execOn false).shared = c.shared ∧ ∀ o ∈ (c.proc false).next, ∀ o', o.undoes o' = false) ∨
      ((c.proc false).next = some (.write [.delete (metaKey k)]) ∧ (c.step execOn false).shared =
        { c.shared with disk := applyBatch c.shared.disk [.delete (metaKey k)] }) ∨
      ((c.proc false).next = some (.versionsRemove k) ∧ (c.step execOn false).shared =
        { c.shared with versions := c.shared.versions.erase k }) := by
  rw [Two.step_shared]
  cases hnext : (c.proc false).next with
  | none =>
    rw [Process.step_of_next_none _ hnext]
    exact .inl ⟨rfl, fun o ho => by cases ho⟩
  | some o =>
    obtain ⟨next, hp⟩ := Process.next_eq_some hnext
    rw [hp] at h ⊢
    have ho : ReadCall k o := h.1
    cases o with
    | write b =>
      obtain rfl : b = _ := ho
      exact .inr (.inl ⟨rfl, rfl⟩)
    | versionsRemove key =>
      obtain rfl : key = k := ho
      exact .inr (.inr ⟨rfl, rfl⟩)
    | get | scanPrefix | nowMs =>
      refine .inl ⟨rfl, fun o ho o' => ?_⟩
      cases ho
      cases o' <;> rfl
    | _ => exact ho.elim

theorem read_turn_only {k : Bytes} {c : Two Call Call.Ans EngineError Reply Clock Store}
    (h : (c.proc false).rest.Only (ReadCall k)) : ((c.step execOn false).proc false).rest.Only (ReadCall k) := by
  rw [Two.step_proc_self]
  cases hnext : (c.proc false).next with
  | none => rwa [Process.step_of_next_none _ hnext]
  | some o =>
    obtain ⟨next, hp⟩ := Process.next_eq_some hnext
    rw [hp] at h ⊢
    exact h.2 _

/-! ## The write -/

/-- All the operation has written is deletions of the metadata. -/
def OnlyDeletes (k : Bytes) (made : List Call) : Prop := ∀ b, .write b ∈ made → b = [.delete (metaKey k)]

def Unregistered (made : List Call) : Prop := ∀ k v, .versionsSet k v ∉ made

def Registered (k : Bytes) (v : UInt64) (made : List Call) : Prop :=
  .versionsSet k v ∈ made ∧ ∀ k' v', .versionsSet k' v' ∈ made → k' = k ∧ v' = v

/-- The phases before anything is registered or written. -/
def Phase.early : Phase → Prop
  | .start | .loaded _ | .expired _ | .dropping .due | .absent | .issued _ | .overwriting | .untracked
  | .untrackedIssued _ => True
  | _ => False

/-- The phases of an operation that has found the key there. -/
def Phase.aside : Phase → Prop
  | .live _ | .dropping .deleted | .dropping .emptied | .emptying _ | .done | .gone | .emptied => True
  | _ => False

/-- What an operation in a phase has called, if `isSet` tells whether it is a `set`. -/
inductive WriterAt (k : Bytes) (isSet : Prop) (made : List Call) : Phase → Prop
  | early {ph : Phase} (hph : ph.early) (hset : isSet ↔ ph.overwrites) (hw : OnlyDeletes k made)
    (hr : Unregistered made) : WriterAt k isSet made ph
  | created {v : UInt64} (hw : OnlyDeletes k made) (hr : Registered k v made) : WriterAt k isSet made (.created v)
  | wrote {v : UInt64} {recs : WriteBatch} {m : Meta} (hrecs : Records k v recs)
    (hw : ∀ b, .write b ∈ made → b = [.delete (metaKey k)] ∨ b = recs ++ [.put (metaKey k) m.encode])
    (hmem : .write (recs ++ [.put (metaKey k) m.encode]) ∈ made)
    (hr : (Unregistered made ∧ m.tracked = none) ∨ (Registered k v made ∧ m.tracked = some v)) :
    WriterAt k isSet made .done
  | aside {ph : Phase} (hph : ph.aside) (hset : ¬ isSet) (hr : Unregistered made) : WriterAt k isSet made ph

section Made

variable {k : Bytes} {made : List Call} {o : Call}

theorem OnlyDeletes.concat (h : OnlyDeletes k made) (ho : ∀ b, o = .write b → b = [.delete (metaKey k)]) :
    OnlyDeletes k (made ++ [o]) := by
  intro b hb
  obtain hb | hb := List.mem_append.mp hb
  · exact h b hb
  · exact ho b (List.mem_singleton.mp hb).symm

theorem Unregistered.concat (h : Unregistered made) (ho : ∀ k v, o ≠ .versionsSet k v) :
    Unregistered (made ++ [o]) := by
  intro k v hv
  obtain hv | hv := List.mem_append.mp hv
  · exact h k v hv
  · exact ho k v (List.mem_singleton.mp hv).symm

theorem Unregistered.register (h : Unregistered made) (v : UInt64) :
    Registered k v (made ++ [.versionsSet k v]) := by
  refine ⟨by simp, fun k' v' hv => ?_⟩
  obtain hv | hv := List.mem_append.mp hv
  · exact absurd hv (h k' v')
  · cases List.mem_singleton.mp hv
    exact ⟨rfl, rfl⟩

theorem Registered.concat {v : UInt64} (h : Registered k v made) (ho : ∀ k v, o ≠ .versionsSet k v) :
    Registered k v (made ++ [o]) := by
  refine ⟨List.mem_append_left _ h.1, fun k' v' hv => ?_⟩
  obtain hv | hv := List.mem_append.mp hv
  · exact h.2 k' v' hv
  · exact absurd (List.mem_singleton.mp hv).symm (ho k' v')

theorem OnlyDeletes.write_concat (h : OnlyDeletes k made) (b : WriteBatch) :
    ∀ b', .write b' ∈ made ++ [.write b] → b' = [.delete (metaKey k)] ∨ b' = b := by
  intro b' hb'
  obtain hb' | hb' := List.mem_append.mp hb'
  · exact .inl (h b' hb')
  · cases List.mem_singleton.mp hb'
    exact .inr rfl

end Made

theorem Move.aside {k : Bytes} {ph ph' : Phase} {o : Call} {a : o.Ans} (h : Move k ph o a ph')
    (hph : ph.aside) : ph'.aside ∧ ∀ k v, o ≠ .versionsSet k v := by
  cases h with
  | @drop why => cases why <;> first | exact ⟨trivial, fun _ _ h => by cases h⟩ | exact hph.elim
  | _ => first | exact ⟨trivial, fun _ _ h => by cases h⟩ | exact hph.elim

theorem writerAt_move {k : Bytes} {isSet : Prop} {made : List Call} {ph ph' : Phase} {o : Call} {a : o.Ans}
    (h : Move k ph o a ph') (hw : WriterAt k isSet made ph) : WriterAt k isSet (made ++ [o]) ph' := by
  cases hw with
  | aside hph hset hr =>
    obtain ⟨hph', ho⟩ := h.aside hph
    exact .aside hph' hset (hr.concat ho)
  | created hw hr =>
    cases h with
    | readNew hk =>
      exact .created (hw.concat fun b hb => by cases hb) (hr.concat fun _ _ ho => by cases ho)
    | writeNew hrecs hm hv he =>
      refine .wrote hrecs (hw.write_concat _) (by simp) (.inr ⟨hr.concat ?_, ?_⟩)
      · intro k v ho
        cases ho
      · rw [Meta.tracked, if_pos hm, hv]
  | wrote hrecs hw hmem hr => cases h
  | early hph hset hw hr =>
    cases h with
    | load hd he => exact .aside trivial (fun his => hset.mp his) (hr.concat fun _ _ ho => by cases ho)
    | inTime hn => exact .aside trivial (fun his => hset.mp his) (hr.concat fun _ _ ho => by cases ho)
    | expire =>
      refine .early trivial hset (hw.concat fun b hb => ?_) (hr.concat fun _ _ ho => by cases ho)
      cases hb
      rfl
    | @drop why =>
      cases why with
      | due => exact .early trivial hset (hw.concat fun b hb => by cases hb) (hr.concat fun _ _ ho => by cases ho)
      | deleted => exact hph.elim
      | emptied => exact hph.elim
    | @register v => exact .created (hw.concat fun b hb => by cases hb) (hr.register v)
    | @writeString v m hm =>
      refine .wrote (Records.nil : Records k v []) (hw.write_concat _) (by simp)
        (.inl ⟨hr.concat ?_, ?_⟩)
      · intro k v ho
        cases ho
      · rw [Meta.tracked, Meta.composite, hm]
        rfl
    | missing | undecodable | loadDue | due | issue | untrack | issueString =>
      exact .early trivial hset (hw.concat fun b hb => by cases hb) (hr.concat fun _ _ ho => by cases ho)
    | _ => exact hph.elim

/-- The writer's next call, if it has one. -/
theorem write_turn {k : Bytes} {al : Allowed} {ph : Phase}
    {c : Two Call Call.Ans EngineError Reply Clock Store}
    (h : Obeys False k (Settles al) ph (c.proc true).rest) :
    c.step execOn true = c ∨ ∃ o ph', Move k ph o (execOn o ((c.proc true).own, c.shared)).1 ph' ∧
      Obeys False k (Settles al) ph' ((c.step execOn true).proc true).rest ∧
      ((c.step execOn true).proc true).made = (c.proc true).made ++ [o] ∧
      (c.step execOn true).shared = (execOn o ((c.proc true).own, c.shared)).2.2 := by
  cases hnext : (c.proc true).next with
  | none =>
    left
    obtain ⟨proc, shared⟩ := c
    rw [Two.step, Process.step_of_next_none _ hnext, Function.update_eq_self]
  | some o =>
    right
    obtain ⟨next, hp⟩ := Process.next_eq_some hnext
    rw [hp] at h
    obtain ⟨ph', hmove, hrest⟩ := h (execOn o ((c.proc true).own, c.shared)).1 (possible_of_not_fresh _ _ _ _)
    refine ⟨o, ph', hmove, ?_, ?_, ?_⟩
    · rw [Two.step_proc_self, hp]
      exact hrest
    · rw [Two.step_proc_self, hp]
      rfl
    · rw [Two.step_shared, hp]
      rfl

/-! ## Side by side -/

/-- The read has its kind of calls left, and the write stands in phase `ph`. -/
structure Beside (k : Bytes) (isSet : Prop) (al : Allowed) (ph : Phase)
    (c : Two Call Call.Ans EngineError Reply Clock Store) : Prop where
  reads : (c.proc false).rest.Only (ReadCall k)
  obeys : Obeys False k (Settles al) ph (c.proc true).rest
  writer : WriterAt k isSet (c.proc true).made ph

/-- What the write holds on to, as long as nobody undoes it. -/
def Held (k : Bytes) (isSet : Prop) (made : List Call) (s : Store) : Phase → Prop
  | .dropping .due | .absent | .issued _ => diskVersion s.disk k = none
  | .created v => diskVersion s.disk k = none ∧ s.versions[k]? = some v
  | .done => (isSet ∨ ∃ v, .versionsSet k v ∈ made) →
      (∀ b, .write b ∈ made → ∀ raw value : Bytes, (applyBatch ∅ b)[raw]? = some value →
        s.disk[raw]? = some value) ∧
      ∀ v, .versionsSet k v ∈ made → s.versions[k]? = some v
  | _ => True

/-- Something of the write is gone and will not come back. -/
def Lost (k : Bytes) (made : List Call) (s : Store) (ph : Phase) : Prop :=
  (ph = .done ∧ s.disk[metaKey k]? = none ∧
    ∃ b value, .write b ∈ made ∧ (applyBatch ∅ b)[metaKey k]? = some value) ∨
  ∃ v, (ph = .created v ∨ ph = .done) ∧ .versionsSet k v ∈ made ∧ s.versions[k]? = none

/-- What a batch puts is there, whatever was there before. -/
theorem getElem?_applyBatch_of_empty {b : WriteBatch} {raw value : Bytes}
    (h : (applyBatch ∅ b)[raw]? = some value) (d : Disk) : (applyBatch d b)[raw]? = some value := by
  induction b using List.reverseRecOn with
  | nil => simp at h
  | append_singleton b op ih =>
    rw [getElem?_applyBatch_concat] at h ⊢
    split
    · rwa [if_pos ‹_›] at h
    · rw [if_neg ‹_›] at h
      exact ih h

theorem getElem?_applyBatch_putMeta (d : Disk) (k : Bytes) (recs : WriteBatch) (m : Meta) :
    (applyBatch d (recs ++ [.put (metaKey k) m.encode]))[metaKey k]? = some m.encode := by
  rw [getElem?_applyBatch_concat]
  exact if_pos rfl

/-- A deletion puts nothing. -/
theorem getElem?_applyBatch_delete_empty (k raw : Bytes) :
    (applyBatch ∅ [.delete (metaKey k)])[raw]? = none := by
  rw [getElem?_applyBatch_single]
  split
  · rfl
  · simp

section Held

variable {k : Bytes} {isSet : Prop} {al : Allowed} {ph ph' : Phase} {made : List Call} {s : Store}

theorem held_wrote {b : WriteBatch} {made' : List Call} (hw : ∀ b', .write b' ∈ made' →
      b' = [.delete (metaKey k)] ∨ b' = b) {b' : WriteBatch} (hb' : .write b' ∈ made') {raw value : Bytes}
    (hv : (applyBatch ∅ b')[raw]? = some value) : (applyBatch s.disk b)[raw]? = some value := by
  obtain rfl | rfl := hw b' hb'
  · rw [getElem?_applyBatch_delete_empty] at hv
    cases hv
  · exact getElem?_applyBatch_of_empty hv s.disk

theorem held_move {o : Call} {l : Clock} (hmove : Move k ph o (execOn o (l, s)).1 ph')
    (hw : WriterAt k isSet made ph) (hh : Held k isSet made s ph) :
    Held k isSet (made ++ [o]) (execOn o (l, s)).2.2 ph' := by
  generalize ha : (execOn o (l, s)).1 = a at hmove
  cases hmove with
  | missing => exact diskVersion_of_missing ha
  | expire => exact diskVersion_delete s.disk k
  | @drop why =>
    cases why with
    | due => exact hh
    | deleted => trivial
    | emptied => trivial
  | issue => exact hh
  | @register v => exact ⟨hh, (getElem?_insert_bytes s.versions k k v).trans (if_pos rfl)⟩
  | readNew hk => exact hh
  | @writeNew v m recs hr hm hv he =>
    intro _
    cases hw with
    | early hph => exact hph.elim
    | aside hph => exact hph.elim
    | created hdel hreg =>
      refine ⟨fun b hb raw value hval => held_wrote (hdel.write_concat _) hb hval, fun v' hv' => ?_⟩
      obtain hv' | hv' := List.mem_append.mp hv'
      · obtain ⟨-, rfl⟩ := hreg.2 k v' hv'
        exact hh.2
      · exact absurd (List.mem_singleton.mp hv') (by simp)
  | @writeString v m hm =>
    intro _
    cases hw with
    | aside hph => exact hph.elim
    | early hph hset hdel hreg =>
      refine ⟨fun b hb raw value hval => held_wrote (hdel.write_concat _) hb hval, fun v' hv' => ?_⟩
      obtain hv' | hv' := List.mem_append.mp hv'
      · exact absurd hv' (hreg k v')
      · exact absurd (List.mem_singleton.mp hv') (by simp)
  | update hr hm ht hv =>
    intro hnew
    cases hw with
    | early hph => exact hph.elim
    | aside hph hnot hreg =>
      obtain hset | ⟨v, hv⟩ := hnew
      · exact absurd hset hnot
      · exact absurd hv ((hreg.concat fun _ _ ho => by cases ho) k v)
  | _ => trivial

/-- A deletion of the read that undoes nothing. -/
theorem held_delete (hw : WriterAt k isSet made ph) (hh : Held k isSet made s ph)
    (hundo : ∀ o' ∈ made, ¬ Call.undoes (.write [.delete (metaKey k)]) o' = true) :
    Held k isSet made { s with disk := applyBatch s.disk [.delete (metaKey k)] } ph := by
  cases ph with
  | dropping why =>
    cases why with
    | due => exact diskVersion_delete s.disk k
    | deleted => trivial
    | emptied => trivial
  | absent => exact diskVersion_delete s.disk k
  | issued v => exact diskVersion_delete s.disk k
  | created v => exact ⟨diskVersion_delete s.disk k, hh.2⟩
  | done =>
    intro hnew
    cases hw with
    | early hph => exact hph.elim
    | wrote hrecs hww hmem hreg => exact absurd (by simp [Call.undoes, WriteOp.value, WriteOp.key]) (hundo _ hmem)
    | aside hph hnot hreg =>
      obtain hset | ⟨v, hv⟩ := hnew
      · exact absurd hset hnot
      · exact absurd hv (hreg k v)
  | _ => trivial

theorem held_drop (hw : WriterAt k isSet made ph) (hh : Held k isSet made s ph)
    (hundo : ∀ o' ∈ made, ¬ Call.undoes (.versionsRemove k) o' = true) :
    Held k isSet made { s with versions := s.versions.erase k } ph := by
  cases ph with
  | dropping why => cases why <;> exact hh
  | absent => exact hh
  | issued v => exact hh
  | created v =>
    cases hw with
    | early hph => exact hph.elim
    | aside hph => exact hph.elim
    | created hdel hreg => exact absurd (beq_self_eq_true k) (hundo _ hreg.1)
  | done =>
    intro hnew
    refine ⟨(hh hnew).1, fun v hv => absurd (beq_self_eq_true k) (hundo _ hv)⟩
  | _ => trivial

end Held

section Lost

variable {k : Bytes} {isSet : Prop} {ph ph' : Phase} {made : List Call} {s : Store}

theorem lost_move {o : Call} {l : Clock} (hmove : Move k ph o (execOn o (l, s)).1 ph')
    (hlost : Lost k made s ph) : Lost k (made ++ [o]) (execOn o (l, s)).2.2 ph' := by
  obtain ⟨rfl, -⟩ | ⟨v, rfl | rfl, hmem, hv⟩ := hlost
  · cases hmove
  · generalize (execOn o (l, s)).1 = a at hmove
    cases hmove with
    | readNew hk => exact .inr ⟨v, .inl rfl, List.mem_append_left _ hmem, hv⟩
    | writeNew hr hm hv' he => exact .inr ⟨v, .inr rfl, List.mem_append_left _ hmem, hv⟩
  · cases hmove

theorem lost_delete (hlost : Lost k made s ph) :
    Lost k made { s with disk := applyBatch s.disk [.delete (metaKey k)] } ph := by
  refine hlost.imp ?_ id
  rintro ⟨hph, -, hb⟩
  refine ⟨hph, ?_, hb⟩
  rw [getElem?_applyBatch_single]
  exact if_pos rfl

theorem lost_drop (hlost : Lost k made s ph) :
    Lost k made { s with versions := s.versions.erase k } ph := by
  refine hlost.imp id ?_
  rintro ⟨v, hph, hmem, -⟩
  exact ⟨v, hph, hmem, (getElem?_erase_bytes s.versions k k).trans (if_pos rfl)⟩

/-- A deletion that undoes a call of the write, unless the write has found the key there. -/
theorem lost_of_undoes_delete (hw : WriterAt k isSet made ph) {o' : Call} (ho' : o' ∈ made)
    (hundo : Call.undoes (.write [.delete (metaKey k)]) o' = true) :
    Lost k made { s with disk := applyBatch s.disk [.delete (metaKey k)] } ph ∨
      (ph.aside ∧ ¬ isSet ∧ Unregistered made) := by
  have hput : ¬ Call.undoes (.write [.delete (metaKey k)]) (.write [.delete (metaKey k)]) = true := by
    simp [Call.undoes, WriteOp.value]
  cases hw with
  | aside hph hset hreg => exact .inr ⟨hph, hset, hreg⟩
  | early hph hset hdel hreg =>
    cases o' with
    | write b =>
      rw [hdel b ho'] at hundo
      exact absurd hundo hput
    | _ => cases hundo
  | created hdel hreg =>
    cases o' with
    | write b =>
      rw [hdel b ho'] at hundo
      exact absurd hundo hput
    | _ => cases hundo
  | wrote hrecs hww hmem hreg =>
    refine .inl (.inl ⟨rfl, ?_, _, _, hmem, getElem?_applyBatch_putMeta ∅ k _ _⟩)
    rw [getElem?_applyBatch_single]
    exact if_pos rfl

theorem lost_of_undoes_drop (hw : WriterAt k isSet made ph) {o' : Call} (ho' : o' ∈ made)
    (hundo : Call.undoes (.versionsRemove k) o' = true) :
    Lost k made { s with versions := s.versions.erase k } ph := by
  have hgone : (s.versions.erase k)[k]? = none := (getElem?_erase_bytes s.versions k k).trans (if_pos rfl)
  cases o' with
  | versionsSet k' v =>
    obtain rfl : k = k' := eq_of_beq hundo
    cases hw with
    | early hph hset hdel hreg => exact absurd ho' (hreg k v)
    | aside hph hset hreg => exact absurd ho' (hreg k v)
    | created hdel hreg =>
      obtain ⟨-, rfl⟩ := hreg.2 k v ho'
      exact .inr ⟨_, .inl rfl, ho', hgone⟩
    | wrote hrecs hww hmem hreg => exact .inr ⟨v, .inr rfl, ho', hgone⟩
  | _ => cases hundo

end Lost

/-! ## Whole runs -/

section Runs

variable {k : Bytes} {isSet : Prop} {al : Allowed} {ph : Phase}
  {c : Two Call Call.Ans EngineError Reply Clock Store}

theorem Beside.read (h : Beside k isSet al ph c) : Beside k isSet al ph (c.step execOn false) where
  reads := read_turn_only h.reads
  obeys := by
    rw [show (true : Bool) = !false from rfl, Two.step_proc_other]
    exact h.obeys
  writer := by
    rw [show (true : Bool) = !false from rfl, Two.step_proc_other]
    exact h.writer

/-- A turn of the write takes both sides of the story along. -/
theorem Beside.write (h : Beside k isSet al ph c) :
    ∃ ph', Beside k isSet al ph' (c.step execOn true) ∧
      (Held k isSet (c.proc true).made c.shared ph →
        Held k isSet ((c.step execOn true).proc true).made (c.step execOn true).shared ph') ∧
      (Lost k (c.proc true).made c.shared ph →
        Lost k ((c.step execOn true).proc true).made (c.step execOn true).shared ph') ∧
      (ph.aside ∧ ¬ isSet ∧ Unregistered (c.proc true).made →
        ph'.aside ∧ ¬ isSet ∧ Unregistered ((c.step execOn true).proc true).made) := by
  obtain hsame | ⟨o, ph', hmove, hobeys, hmade, hshared⟩ := write_turn h.obeys
  · rw [hsame]
    exact ⟨ph, h, id, id, id⟩
  · refine ⟨ph', ⟨?_, hobeys, ?_⟩, ?_, ?_, ?_⟩
    · rw [show (false : Bool) = !true from rfl, Two.step_proc_other]
      exact h.reads
    · rw [hmade]
      exact writerAt_move hmove h.writer
    · rw [hmade, hshared]
      exact held_move hmove h.writer
    · rw [hmade, hshared]
      exact lost_move hmove
    · rw [hmade]
      rintro ⟨hph, hset, hreg⟩
      obtain ⟨hph', ho⟩ := hmove.aside hph
      exact ⟨hph', hset, hreg.concat ho⟩

theorem read_made : ((c.step execOn false).proc true).made = (c.proc true).made := by
  rw [show (true : Bool) = !false from rfl, Two.step_proc_other]

theorem held_run {sched : List Bool} (h : Beside k isSet al ph c)
    (hheld : Held k isSet (c.proc true).made c.shared ph)
    (hs : Meets (Two.step execOn) (Two.Ahead (fun o o' => o.undoes o' = true) false) c sched) :
    ∃ ph', Beside k isSet al ph' (c.run execOn sched) ∧
      Held k isSet ((c.run execOn sched).proc true).made (c.run execOn sched).shared ph' := by
  refine hs.induction (I := fun c => ∃ ph', Beside k isSet al ph' c ∧
    Held k isSet (c.proc true).made c.shared ph') (fun c turn hturn ⟨ph, h, hheld⟩ => ?_) ⟨ph, h, hheld⟩
  cases turn with
  | true =>
    obtain ⟨ph', h', hheld', -⟩ := h.write
    exact ⟨ph', h', hheld' hheld⟩
  | false =>
    refine ⟨ph, h.read, ?_⟩
    rw [read_made]
    obtain ⟨hsame, -⟩ | ⟨hnext, hshared⟩ | ⟨hnext, hshared⟩ := read_turn h.reads
    · rwa [hsame]
    · rw [hshared]
      exact held_delete h.writer hheld (hturn rfl _ hnext)
    · rw [hshared]
      exact held_drop h.writer hheld (hturn rfl _ hnext)

/-- What is lost stays lost. -/
theorem lost_run (sched : List Bool) (h : Beside k isSet al ph c)
    (hlost : Lost k (c.proc true).made c.shared ph ∨ (ph.aside ∧ ¬ isSet ∧ Unregistered (c.proc true).made)) :
    ∃ ph', Lost k ((c.run execOn sched).proc true).made (c.run execOn sched).shared ph' ∨
      (¬ isSet ∧ Unregistered ((c.run execOn sched).proc true).made) := by
  induction sched generalizing c ph with
  | nil => exact ⟨ph, hlost.imp_right And.right⟩
  | cons turn sched ih =>
    cases turn with
    | true =>
      obtain ⟨ph', h', -, hlost', haside'⟩ := h.write
      exact ih h' (hlost.imp hlost' haside')
    | false =>
      refine ih h.read ?_
      rw [read_made]
      refine hlost.imp_left fun hlost => ?_
      obtain ⟨hsame, -⟩ | ⟨-, hshared⟩ | ⟨-, hshared⟩ := read_turn h.reads
      · rwa [hsame]
      · rw [hshared]
        exact lost_delete hlost
      · rw [hshared]
        exact lost_drop hlost

/-- A run with a deletion that comes too late loses something of the write. -/
theorem lost_of_not_meets {sched : List Bool} (h : Beside k isSet al ph c)
    (hs : ¬ Meets (Two.step execOn) (Two.Ahead (fun o o' => o.undoes o' = true) false) c sched) :
    ∃ ph', Lost k ((c.run execOn sched).proc true).made (c.run execOn sched).shared ph' ∨
      (¬ isSet ∧ Unregistered ((c.run execOn sched).proc true).made) := by
  induction sched generalizing c ph with
  | nil => exact absurd trivial hs
  | cons turn sched ih =>
    by_cases hturn : Two.Ahead (fun o o' => o.undoes o' = true) false c turn
    · have hs' : ¬ Meets (Two.step execOn) (Two.Ahead (fun o o' => o.undoes o' = true) false)
          (c.step execOn turn) sched := fun hm => hs ⟨hturn, hm⟩
      cases turn with
      | true =>
        obtain ⟨ph', h', -⟩ := h.write
        exact ih h' hs'
      | false => exact ih h.read hs'
    · unfold Two.Ahead at hturn
      push Not at hturn
      obtain ⟨rfl, o, ho, o', ho', hundo⟩ := hturn
      refine lost_run sched h.read ?_
      rw [read_made]
      obtain ⟨-, hnone⟩ | ⟨hnext, hshared⟩ | ⟨hnext, hshared⟩ := read_turn h.reads
      · rw [hnone o ho o'] at hundo
        cases hundo
      · obtain rfl := Option.some.inj (hnext.symm.trans ho)
        rw [hshared]
        exact lost_of_undoes_delete h.writer ho' hundo
      · obtain rfl := Option.some.inj (hnext.symm.trans ho)
        rw [hshared]
        exact .inl (lost_of_undoes_drop h.writer ho' hundo)

end Runs

/-! ## The result -/

theorem not_survives_of_lost {k : Bytes} {c : Two Call Call.Ans EngineError Reply Clock Store} {ph : Phase}
    (h : Lost k (c.proc true).made c.shared ph) : ¬ Survives k c := by
  intro hs
  obtain ⟨-, hnone, b, value, hmem, hput⟩ | ⟨v, -, hmem, hnone⟩ := h
  · have hdisk := hs.records b hmem (metaKey k) value hput
    rw [hnone] at hdisk
    cases hdisk
  · have hmap := hs.registered v hmem
    rw [hnone] at hmap
    cases hmap

/-- A write that has returned, and has not found the key there, survives if it is held. -/
theorem survives_of_held {k : Bytes} {isSet : Prop} {al : Allowed} {ph : Phase}
    {c : Two Call Call.Ans EngineError Reply Clock Store} (h : Beside k isSet al ph c)
    (hheld : Held k isSet (c.proc true).made c.shared ph) {r : Except EngineError Reply}
    (hr : (c.proc true).result = some r)
    (hnew : isSet ∨ ∃ v, .versionsSet k v ∈ (c.proc true).made) : Survives k c := by
  have hend : ph.settled al := by
    have hobeys := h.obeys
    generalize c.proc true = p at hobeys hr
    obtain ⟨made, own, rest⟩ := p
    cases rest with
    | ok a => exact hobeys
    | err e => exact hobeys
    | call o next => cases hr
  cases h.writer with
  | early hph hset hdel hreg =>
    have hover : ph.overwrites := by
      obtain his | ⟨v, hv⟩ := hnew
      · exact hset.mp his
      · exact absurd hv (hreg k v)
    cases ph <;> first | exact hover.elim | exact hend.elim
  | aside hph hset hreg =>
    obtain his | ⟨v, hv⟩ := hnew
    · exact absurd his hset
    · exact absurd hv (hreg k v)
  | created hdel hreg =>
    refine ⟨fun b hb raw value hv => ?_, fun v hv => ?_, trackedAt_of_none hheld.1⟩
    · rw [hdel b hb, getElem?_applyBatch_delete_empty] at hv
      cases hv
    · obtain ⟨-, rfl⟩ := hreg.2 k v hv
      exact hheld.2
  | wrote hrecs hww hmem hreg =>
    obtain ⟨hrecords, hregistered⟩ := hheld hnew
    refine ⟨hrecords, hregistered, fun v hv => ?_⟩
    have hmeta := hrecords _ hmem (metaKey k) _ (getElem?_applyBatch_putMeta ∅ k _ _)
    rw [diskVersion_of_decode hmeta (Meta.decode_encode _)] at hv
    obtain ⟨-, hnone⟩ | ⟨hreg, hsome⟩ := hreg
    · rw [hnone] at hv
      cases hv
    · obtain rfl := Option.some.inj (hsome.symm.trans hv)
      exact hregistered _ hreg.1

/-- The client `true` has written without finding the key there: it ran `set`, or has
registered a version for it. -/
def WroteAnew (key : Key) (op : KeyOp) (made : List Call) : Prop :=
  (∃ value expireMs, op = .set value expireMs) ∨ ∃ v, .versionsSet key.1 v ∈ made

/-- Beside any read, in any interleaving, a write that returned success is there and tracked
afterwards exactly if no deletion of the read came after what it undoes. -/
theorem write_survives_iff (key : Key) (op : Bool → KeyOp) (clock : Bool → Clock) (s : Store)
    (sched : List Bool) (hread : (op false).isRead)
    (hok : ∀ b, ∃ reply, ((race key op clock s sched).proc b).result = some (.ok reply))
    (hnew : WroteAnew key (op true) ((race key op clock s sched).proc true).made) :
    Survives key.1 (race key op clock s sched) ↔ SweepsInTime key op clock s sched := by
  have hbegin : Beside key.1 (∃ value expireMs, op true = .set value expireMs) ((op true).allowed False)
      (op true).begins (Two.begin clock (fun b => (op b).prog key.1) s) := by
    refine ⟨KeyOp.only_readCall key hread, (op true).obeys key.2, .early ?_ ?_ ?_ ?_⟩
    · cases op true <;> trivial
    · cases op true <;> simp [KeyOp.begins, Phase.overwrites]
    · intro b hb
      cases hb
    · intro k v hv
      cases hv
  constructor
  · intro hs
    by_contra hlate
    obtain ⟨ph, hlost | ⟨hset, hreg⟩⟩ := lost_of_not_meets hbegin hlate
    · exact not_survives_of_lost hlost hs
    · obtain his | ⟨v, hv⟩ := hnew
      · exact hset his
      · exact hreg key.1 v hv
  · intro hs
    have hheld : Held key.1 (∃ value expireMs, op true = .set value expireMs) [] s (op true).begins := by
      cases op true <;> trivial
    obtain ⟨ph, h, hheld'⟩ := held_run hbegin hheld hs
    obtain ⟨reply, hr⟩ := hok true
    exact survives_of_held h hheld' hr hnew

/-- A string whose deadline has passed. -/
def expiredString : Store :=
  ((World.opened ∅ (stillClock 7 5)).after [.run (.keyed Key.k (.set [118] 3))]).toStore

/-- The read deletes and drops what it has found expired while the other client is looking
for the key; the list that is pushed then stays. -/
theorem write_survives_expired :
    SweepsInTime Key.k (fun b => if b then .push [[98]] true else .get) (fun _ => stillClock 7 6)
        expiredString [false, false, false, true, false, true, true, true] ∧
      Survives Key.k.1 (race Key.k (fun b => if b then .push [[98]] true else .get)
        (fun _ => stillClock 7 6) expiredString [false, false, false, true, false, true, true, true]) := by
  have htime : SweepsInTime Key.k (fun b => if b then .push [[98]] true else .get) (fun _ => stillClock 7 6)
      expiredString [false, false, false, true, false, true, true, true] := by
    unfold SweepsInTime
    decide +kernel
  refine ⟨htime, (write_survives_iff Key.k _ _ _ _ rfl (fun b => ?_) (.inr ⟨6, ?_⟩)).mpr htime⟩
  · cases b with
    | false => exact ⟨.value none, by decide +kernel⟩
    | true => exact ⟨.int 1, by decide +kernel⟩
  · exact List.mem_of_getElem? (i := 2) rfl

/-- The read has seen the old string expired when the new one is set, and deletes that. -/
theorem read_destroys_set :
    ¬ ∀ (key : Key) (op : Bool → KeyOp) (clock : Bool → Clock) (s : Store) (sched : List Bool),
      (op false).isRead →
      (∀ value expireMs, op true = .set value expireMs →
        expireMs = 0 ∨ ∀ n, (clock false).ms.get n < expireMs) →
      (∀ b, ∃ reply, ((race key op clock s sched).proc b).result = some (.ok reply)) →
      WroteAnew key (op true) ((race key op clock s sched).proc true).made →
      Survives key.1 (race key op clock s sched) := by
  intro h
  have hs := h Key.k (fun b => if b then .set [119] 0 else .get) (fun _ => stillClock 7 6) expiredString
    [false, false, true, true, true, false, false] rfl ?_ (fun b => ?_) (.inl ⟨[119], 0, rfl⟩)
  · have hgone := hs.records _ (List.mem_of_getElem? (i := 2) rfl) (metaKey [107]) _
      (getElem?_applyBatch_putMeta ∅ [107] [] _)
    exact absurd hgone (by decide +kernel)
  · intro value expireMs he
    cases he
    exact .inl rfl
  · cases b with
    | false => exact ⟨.value none, by decide +kernel⟩
    | true => exact ⟨.unit, by decide +kernel⟩

end GameStore
