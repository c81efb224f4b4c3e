import GameStore.Operation

/-!
# What an operation does to its key

Every operation on a key goes through a few phases: it reads the metadata, drops
it when it has expired, perhaps issues a version and registers it, reads records
of that one version, and ends with at most one write, or two when the last
element goes. `Move` lists these steps with their guards. Each operation is shown
to take only these steps; what follows for the map, the records, a stop, a
failing write or another client is then derived from `Move` alone.
-/

namespace GameStore

open Lib

/-- Why metadata was deleted. -/
inductive Dropped
  | due
  | deleted
  | emptied

inductive Phase
  | start
  /-- Metadata with a deadline, not yet compared with the clock. -/
  | loaded (m : Meta)
  | live (m : Meta)
  | expired (m : Meta)
  /-- The metadata is deleted and the map entry still to be dropped. -/
  | dropping (why : Dropped)
  | absent
  | issued (v : UInt64)
  /-- The version is registered, the metadata not yet written. -/
  | created (v : UInt64)
  /-- `set` before its first call; it never looks at what is there. -/
  | overwriting
  /-- `set` has dropped the map entry and not yet written. -/
  | untracked
  | untrackedIssued (v : UInt64)
  /-- The last elements are deleted, the metadata not yet. -/
  | emptying (m : Meta)
  | done
  | gone
  | emptied

def Dropped.next : Dropped → Phase
  | due => .absent
  | deleted => .gone
  | emptied => .emptied

inductive Move (k : Bytes) : Phase → (o : Call) → o.Ans → Phase → Prop
  | missing : Move k .start (.get (metaKey k)) none .absent
  | undecodable {raw : Bytes} (h : Meta.decode raw = none) :
    Move k .start (.get (metaKey k)) (some raw) .start
  | load {raw : Bytes} {m : Meta} (h : Meta.decode raw = some m) (he : m.expireMs = 0) :
    Move k .start (.get (metaKey k)) (some raw) (.live m)
  | loadDue {raw : Bytes} {m : Meta} (h : Meta.decode raw = some m) (he : m.expireMs ≠ 0) :
    Move k .start (.get (metaKey k)) (some raw) (.loaded m)
  | inTime {m : Meta} {now : UInt64} (h : ¬ m.expireMs ≤ now) :
    Move k (.loaded m) .nowMs now (.live m)
  | due {m : Meta} {now : UInt64} (he : m.expireMs ≠ 0) (h : m.expireMs ≤ now) :
    Move k (.loaded m) .nowMs now (.expired m)
  | expire {m : Meta} : Move k (.expired m) (.write [.delete (metaKey k)]) () (.dropping .due)
  | drop {why : Dropped} : Move k (.dropping why) (.versionsRemove k) () why.next
  | tick {m : Meta} {now : UInt64} : Move k (.live m) .nowMs now (.live m)
  | read {m : Meta} {key : Bytes} {a : Option Bytes} (hm : m.composite)
    (hk : RecordOf k m.version key) : Move k (.live m) (.get key) a (.live m)
  | scan {m : Meta} {pre : Bytes} {l : List (Bytes × Bytes)} (hm : m.composite)
    (hp : pre = subkeyPrefix k m.version ∨ pre = zscorePrefix k m.version) :
    Move k (.live m) (.scanPrefix pre) l (.live m)
  | update {m m' : Meta} {recs : WriteBatch} (hr : Records k m.version recs)
    (hm : recs ≠ [] → m.composite) (ht : m'.typeId = m.typeId) (hv : m'.version = m.version) :
    Move k (.live m) (.write (recs ++ [.put (metaKey k) m'.encode])) () .done
  | delete {m : Meta} : Move k (.live m) (.write [.delete (metaKey k)]) () (.dropping .deleted)
  | strip {m : Meta} {recs : WriteBatch} (hr : Records k m.version recs) (hm : m.composite) :
    Move k (.live m) (.write recs) () (.emptying m)
  | deleteEmptied {m : Meta} :
    Move k (.emptying m) (.write [.delete (metaKey k)]) () (.dropping .emptied)
  | issue {v : UInt64} : Move k .absent .nextVersion v (.issued v)
  | register {v : UInt64} : Move k (.issued v) (.versionsSet k v) () (.created v)
  | readNew {v : UInt64} {key : Bytes} {a : Option Bytes} (hk : RecordOf k v key) :
    Move k (.created v) (.get key) a (.created v)
  | writeNew {v : UInt64} {m : Meta} {recs : WriteBatch} (hr : Records k v recs)
    (hm : m.composite) (hv : m.version = v) (he : m.expireMs = 0) :
    Move k (.created v) (.write (recs ++ [.put (metaKey k) m.encode])) () .done
  | untrack : Move k .overwriting (.versionsRemove k) () .untracked
  | issueString {v : UInt64} : Move k .untracked .nextVersion v (.untrackedIssued v)
  | writeString {v : UInt64} {m : Meta} (hm : m.typeId = TYPE_STRING) :
    Move k (.untrackedIssued v) (.write [.put (metaKey k) m.encode]) () .done

/-- Metadata rewritten alone. -/
theorem Move.rewrite {k : Bytes} {m m' : Meta} (ht : m'.typeId = m.typeId)
    (hv : m'.version = m.version) :
    Move k (.live m) (.write [.put (metaKey k) m'.encode]) () .done :=
  .update Records.nil (fun h => absurd rfl h) ht hv

/-- The answers that can come back. When `fresh`, a version just registered has
no records yet. -/
def Possible (fresh : Prop) (k : Bytes) (ph : Phase) : (o : Call) → o.Ans → Prop
  | .get key, a => ∀ v, ph = .created v → fresh → RecordOf k v key → a = none
  | _, _ => True

theorem possible_of_not_fresh (k : Bytes) (ph : Phase) (o : Call) (a : o.Ans) :
    Possible False k ph o a := by
  cases o with
  | get key => exact fun _ _ h => h.elim
  | _ => trivial

/-- How an operation may end, other than by finding nothing to do. -/
structure Allowed where
  /-- After a write, or with the key deleted. -/
  writes : Prop
  /-- With the key deleted because its last element went. -/
  empties : Prop
  /-- With a version registered under which nothing was written. -/
  leaves : Prop

/-- The phases in which an operation may return. -/
def Phase.settled (al : Allowed) : Phase → Prop
  | .start | .live _ | .absent => True
  | .done | .gone => al.writes
  | .emptied => al.empties
  | .created _ => al.leaves
  | _ => False

/-- Reads write nothing, removals may empty the key, and of the operations that
register a version `hset` and `push` always go on to write, `sadd` and `zadd` when
they list something and find nothing. -/
def KeyOp.allowed (fresh : Prop) (op : KeyOp) : Allowed where
  writes := op.isRead = false
  empties := match op with
    | .hdel _ | .srem _ | .zrem _ | .pop _ _ => True
    | _ => False
  leaves := match op with
    | .sadd members => ¬ (fresh ∧ members ≠ [])
    | .zadd pairs => ¬ (fresh ∧ pairs ≠ [])
    | _ => False

def KeyOp.begins : KeyOp → Phase
  | .set _ _ => .overwriting
  | _ => .start

/-- The phases of `set`. -/
def Phase.overwrites : Phase → Prop
  | .overwriting | .untracked | .untrackedIssued _ => True
  | _ => False

/-- No other operation gets into a phase of `set`. -/
theorem Move.not_overwrites {k : Bytes} {ph ph' : Phase} {o : Call} {a : o.Ans}
    (h : Move k ph o a ph') (hph : ¬ ph.overwrites) : ¬ ph'.overwrites := by
  cases h with
  | @drop why => cases why <;> exact id
  | _ => first | exact id | exact absurd trivial hph

/-- The records of other keys are out of reach. -/
theorem Move.getElem?_foreign {k raw : Bytes} {ph ph' : Phase} {o : Call} {a : o.Ans}
    (h : Move k ph o a ph') (hmeta : raw ≠ metaKey k) (hrec : ∀ v, ¬ RecordOf k v raw) (s : World) :
    (exec o s).2.disk[raw]? = s.disk[raw]? := by
  have hput : ∀ {v : UInt64} {recs : WriteBatch} (m : Meta), Records k v recs →
      (applyBatch s.disk (recs ++ [.put (metaKey k) m.encode]))[raw]? = s.disk[raw]? := by
    intro v recs m hr
    rw [getElem?_applyBatch_concat]
    exact (if_neg hmeta.symm).trans (hr.getElem?_of_not _ (hrec v))
  have herase : (applyBatch s.disk [.delete (metaKey k)])[raw]? = s.disk[raw]? :=
    (getElem?_applyBatch_single _ _ _).trans (if_neg hmeta.symm)
  cases h with
  | expire => exact herase
  | delete => exact herase
  | deleteEmptied => exact herase
  | update hr hm ht hv => exact hput _ hr
  | writeNew hr hm hv he => exact hput _ hr
  | writeString hm => exact hput (v := 0) _ Records.nil
  | strip hr hm => exact hr.getElem?_of_not _ (hrec _)
  | _ => rfl

section Obeys

variable {fresh : Prop} {al : Allowed} {k : Bytes} {α β : Type}

/-- From phase `ph` the program takes only listed steps and ends with `Q`. -/
abbrev Obeys (fresh : Prop) (k : Bytes) (Q : Except EngineError α → Phase → Prop) (ph : Phase)
    (p : StoreM α) : Prop := Prog.Follows (Possible fresh k) (Move k) Q ph p

abbrev Settles (al : Allowed) : Except EngineError α → Phase → Prop := fun _ ph => ph.settled al

/-! ## Loading -/

theorem obeys_loadMeta : Obeys fresh k (fun r ph => match r with
    | .ok none => ph = .absent
    | .ok (some m) => if m.expireMs = 0 then ph = .live m else ph = .loaded m
    | .error _ => ph = .start) .start (loadMeta k) := by
  apply Prog.Follows.perform
  rintro (_ | raw) -
  · exact ⟨_, .missing, rfl⟩
  · cases hd : Meta.decode raw with
    | none => exact ⟨_, .undecodable hd, by simp only [hd, Prog.Follows]⟩
    | some m =>
      by_cases he : m.expireMs = 0
      · exact ⟨_, .load hd he, by simp only [hd, Prog.pure_eq, Prog.Follows, if_pos he]⟩
      · exact ⟨_, .loadDue hd he, by simp only [hd, Prog.pure_eq, Prog.Follows, if_neg he]⟩

theorem obeys_expire {m : Meta} : Obeys fresh k (fun r ph => r = .ok () ∧ ph = .absent)
    (.expired m) (logicalDelete k) :=
  fun _ _ => ⟨_, .expire, fun _ _ => ⟨_, .drop, rfl, rfl⟩⟩

theorem obeys_loadLiveMeta : Obeys fresh k (fun r ph => match r with
    | .ok none => ph = .absent
    | .ok (some m) => ph = .live m
    | .error _ => ph = .start) .start (loadLiveMeta k) := by
  apply Prog.Follows.bind
  apply obeys_loadMeta.mono
  rintro (e | _ | m) ph hph
  · exact hph
  · exact hph
  · dsimp only at hph ⊢
    by_cases he : m.expireMs = 0
    · rw [if_pos he] at hph
      rw [if_neg (not_not.mpr he)]
      exact hph
    · rw [if_neg he] at hph
      rw [if_pos he, hph]
      apply Prog.Follows.perform
      intro now _
      by_cases hn : m.expireMs ≤ now
      · refine ⟨_, .due he hn, ?_⟩
        rw [if_pos hn]
        apply Prog.Follows.bind
        apply obeys_expire.mono
        rintro r ph' ⟨rfl, rfl⟩
        rfl
      · refine ⟨_, .inTime hn, ?_⟩
        rw [if_neg hn]
        rfl

theorem obeys_live {f : Option Meta → StoreM β}
    (hsome : ∀ m, Obeys fresh k (Settles al) (.live m) (f (some m)))
    (hnone : Obeys fresh k (Settles al) .absent (f none)) :
    Obeys fresh k (Settles al) .start (loadLiveMeta k >>= f) := by
  apply Prog.Follows.bind
  apply obeys_loadLiveMeta.mono
  rintro (e | _ | m) ph hph
  · exact hph ▸ trivial
  · exact hph ▸ hnone
  · exact hph ▸ hsome m

theorem obeys_loadTyped {t : UInt8} : Obeys fresh k (fun r ph => match r with
    | .ok none => ph = .absent
    | .ok (some m) => ph = .live m ∧ m.typeId = t
    | .error _ => ph = .start ∨ ∃ m, ph = .live m) .start (loadTyped k t) := by
  apply Prog.Follows.bind
  apply obeys_loadLiveMeta.mono
  rintro (e | _ | m) ph hph
  · exact .inl hph
  · exact hph
  · dsimp only at hph ⊢
    split
    · exact ⟨hph, ‹_›⟩
    · exact .inr ⟨m, hph⟩

theorem obeys_typed {t : UInt8} {f : Option Meta → StoreM β}
    (hsome : ∀ m, m.typeId = t → Obeys fresh k (Settles al) (.live m) (f (some m)))
    (hnone : Obeys fresh k (Settles al) .absent (f none)) :
    Obeys fresh k (Settles al) .start (loadTyped k t >>= f) := by
  apply Prog.Follows.bind
  apply obeys_loadTyped.mono
  rintro (e | _ | m) ph hph
  · obtain rfl | ⟨m, rfl⟩ := hph <;> trivial
  · exact hph ▸ hnone
  · exact hph.1 ▸ hsome m hph.2

/-! ## One incarnation open -/

/-- `m` is the metadata the operation works on: read from disk, or its own and
still to be written. -/
def Opened (ph : Phase) (m : Meta) : Prop :=
  m.composite ∧ (ph = .live m ∨ ph = .created m.version ∧ m.expireMs = 0)

theorem Opened.get {ph : Phase} {m : Meta} (hm : Opened ph m) {key : Bytes}
    (hk : RecordOf k m.version key) {Q : Except EngineError α → Phase → Prop}
    {f : Option Bytes → StoreM α}
    (hf : ∀ a, (fresh → ph = .created m.version → a = none) → Obeys fresh k Q ph (f a)) :
    Obeys fresh k Q ph (engineGet key >>= f) := by
  apply Prog.Follows.perform
  intro a ha
  refine ⟨ph, ?_, hf a fun hfr hph => ha _ hph hfr hk⟩
  obtain ⟨hc, rfl | ⟨rfl, -⟩⟩ := hm
  · exact .read hc hk
  · exact .readNew hk

theorem Opened.write {ph : Phase} {m : Meta} (hm : Opened ph m) {recs : WriteBatch}
    (hr : Records k m.version recs) (m' : Meta) (ht : m'.typeId = m.typeId) (hv : m'.version = m.version)
    (he : m'.expireMs = m.expireMs) (hal : al.writes) (a : α) :
    Obeys fresh k (Settles al) ph (do
      engineWrite (recs ++ [.put (metaKey k) m'.encode])
      pure a) := by
  apply Prog.Follows.perform
  intro _ _
  refine ⟨.done, ?_, hal⟩
  obtain ⟨hc, rfl | ⟨rfl, h0⟩⟩ := hm
  · exact .update hr (fun _ => hc) ht hv
  · have hc' : m'.composite := by rw [Meta.composite, ht]; exact hc
    exact .writeNew hr hc' hv (he.trans h0)

theorem composite_of_type {m : Meta} (h : m.typeId = TYPE_HASH ∨ m.typeId = TYPE_SET ∨
    m.typeId = TYPE_ZSET ∨ m.typeId = TYPE_LIST) : m.composite := by
  simpa [Meta.composite] using h

theorem obeys_loadOrCreate {t : UInt8} (init : Meta → Meta)
    (ht : t = TYPE_HASH ∨ t = TYPE_SET ∨ t = TYPE_ZSET ∨ t = TYPE_LIST)
    (hinit : ∀ m, (init m).typeId = m.typeId ∧ (init m).version = m.version ∧
      (init m).expireMs = m.expireMs)
    {f : Meta → StoreM β}
    (hf : ∀ m ph, Opened ph m → m.typeId = t →
      (ph = .live m ∨ m = init { typeId := t, version := m.version, expireMs := 0, payload := [] }) →
      Obeys fresh k (Settles al) ph (f m)) :
    Obeys fresh k (Settles al) .start (loadOrCreate k t init >>= f) := by
  have hload : Obeys fresh k (fun r ph => match r with
      | .ok m => Obeys fresh k (Settles al) ph (f m)
      | .error _ => ph.settled al) .start (loadOrCreate k t init) := by
    apply Prog.Follows.bind
    apply obeys_loadTyped.mono
    rintro (e | _ | m) ph hph
    · obtain rfl | ⟨m, rfl⟩ := hph <;> trivial
    · obtain rfl : ph = .absent := hph
      intro v _
      refine ⟨_, .issue, fun _ _ => ⟨_, .register, ?_⟩⟩
      obtain ⟨h1, h2, h3⟩ := hinit { typeId := t, version := v, expireMs := 0, payload := [] }
      have hc : (init { typeId := t, version := v, expireMs := 0, payload := [] }).composite :=
        composite_of_type (by rw [h1]; exact ht)
      exact hf _ _ ⟨hc, .inr ⟨by rw [h2], h3⟩⟩ h1 (.inr (by rw [h2]))
    · obtain ⟨rfl, hty⟩ := hph
      exact hf m _ ⟨composite_of_type (hty ▸ ht), .inl rfl⟩ hty (.inl rfl)
  apply Prog.Follows.bind
  exact hload.mono fun r ph hr => by cases r <;> exact hr

theorem obeys_deleteLive {m : Meta} (hal : al.writes) (a : α) :
    Obeys fresh k (Settles al) (.live m) (do
      logicalDelete k
      pure a) :=
  fun _ _ => ⟨_, .delete, fun _ _ => ⟨_, .drop, hal⟩⟩

theorem obeys_strip {m : Meta} (hm : m.composite) {recs : WriteBatch}
    (hr : Records k m.version recs) (hal : al.empties) (a : α) : Obeys fresh k (Settles al) (.live m) (do
      engineWrite recs
      logicalDelete k
      pure a) :=
  fun _ _ => ⟨_, .strip hr hm, fun _ _ => ⟨_, .deleteEmptied, fun _ _ => ⟨_, .drop, hal⟩⟩⟩

theorem obeys_finishRemoval {m : Meta} (hm : m.composite) {t : Tally}
    (ht : Records k m.version t.batch) (hw : al.writes) (hal : al.empties) :
    Obeys fresh k (Settles al) (.live m) (finishRemoval k m t) := by
  unfold finishRemoval
  split
  · split
    · exact obeys_strip hm ht hal _
    · exact Opened.write ⟨hm, .inl rfl⟩ ht (m.setFieldCount t.count) rfl rfl rfl hw _
  · trivial

end Obeys

end GameStore
