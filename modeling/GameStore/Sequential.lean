import GameStore.Compaction
import GameStore.Reuse
import GameStore.Isolation
import GameStore.Crash

/-!
# Sequential runs from an empty store

What every such run keeps of the store as a whole, and what it leaves of a key
that it does not write to: the same metadata but for the deadline, and the same
records under its version.
-/

namespace GameStore

open Lib Std

/-- Every version issued is above all issued before it. -/
def Increasing : Call → World → Prop := Rising fun _ => False

/-- A step of a sequential run without failures: an operation, each version it issues above
the last one. -/
def Ascending (w : World) : Event → Prop
  | .run op => op.prog.Always exec Increasing w
  | _ => False

/-- The operation is moreover called as the command layer calls it. -/
def InOrder (w : World) : Event → Prop
  | .run op => op.wellCalled ∧ op.prog.Always exec Increasing w
  | _ => False

theorem InOrder.ascending {w : World} {e : Event} (h : InOrder w e) : Ascending w e := by
  match e with
  | .run op => exact h.2
  | .failing op n => exact h
  | .restart clock => exact h

/-- The increase of the versions, checked call by call. -/
theorem ascending_of_check {w : World} {op : Op} (h : op.prog.Always exec (fun o w => o.issuesAbove w) w) :
    Ascending w (.run op) := by
  refine h.imp exec fun o w ho => ?_
  cases o with
  | nextVersion => exact ⟨of_decide_eq_true ho, fun v hv => hv.elim⟩
  | _ => trivial

theorem inOrder_of_check {w : World} {op : Op} (hcall : op.wellCalled)
    (h : op.prog.Always exec (fun o w => o.issuesAbove w) w) : InOrder w (.run op) :=
  ⟨hcall, ascending_of_check h⟩

/-- Every metadata record decodes. -/
def Decodes (d : Disk) : Prop := ∀ k raw, d[metaKey k]? = some raw → ∃ m, Meta.decode raw = some m

/-- What such runs keep. -/
structure World.Orderly (w : World) : Prop where
  agrees : w.Agrees
  bounded : Bounded (fun _ => False) w.toStore
  installed : w.gcInstalled = true
  decodes : ∀ k raw, w.disk[metaKey k]? = some raw → ∃ m, Meta.decode raw = some m

theorem orderly_opened (clock : Clock) : (World.opened ∅ clock).Orderly where
  agrees := fun k v hv => (exact_opened ∅ clock k).trans hv
  bounded := by
    intro v hv
    rw [opened_eq] at hv
    exact absurd hv (not_onDisk_empty v)
  installed := by rw [opened_eq]
  decodes := by
    intro k raw hraw
    rw [opened_eq] at hraw
    exact nomatch ExtTreeMap.getElem?_empty.symm.trans hraw

section Orderly

variable {w : World} {k : Bytes}

theorem Decodes.readMeta_none {d : Disk} (h : Decodes d) (hm : readMeta d k = none) : d[metaKey k]? = none := by
  cases hraw : d[metaKey k]? with
  | none => rfl
  | some raw =>
    obtain ⟨m, hd⟩ := h k raw hraw
    rw [readMeta, hraw] at hm
    cases hd.symm.trans hm

/-- A key is live or absent. -/
theorem Decodes.absent (h : Decodes w.disk) (hlive : w.liveMeta k = none) : w.Absent k := by
  cases hm : readMeta w.disk k with
  | none => exact .inl (h.readMeta_none hm)
  | some m =>
    refine .inr ⟨m, hm, ?_⟩
    simpa [World.liveMeta, hm] using hlive

theorem World.Orderly.readMeta_none (h : w.Orderly) (hm : readMeta w.disk k = none) :
    w.disk[metaKey k]? = none := Decodes.readMeta_none h.decodes hm

theorem World.Orderly.absent (h : w.Orderly) (hlive : w.liveMeta k = none) : w.Absent k :=
  Decodes.absent h.decodes hlive

/-- A program that opens with `loadOrCreate` on an absent key issues a version. -/
theorem increasing_loadOrCreate {α β : Type} (habs : w.Absent k) {t : UInt8} {init : Meta → Meta}
    {f : Meta → StoreM α} {g : α → β}
    (h : (g <$> (loadOrCreate k t init >>= f)).Always exec Increasing w) : w.versionClock < w.nextIssue := by
  rw [Prog.map_eq] at h
  have hload : (loadOrCreate k t init).Always exec Increasing w := h.left.left
  obtain ⟨w', hrun, hst, hc⟩ := run_loadTyped_absent habs t
  have hissue : Increasing .nextVersion w' := (hload.right exec hrun).1
  have hnext : w'.nextIssue = w.nextIssue := nextIssue_congr hc hst.versionClock_eq
  rw [← hnext, ← hst.versionClock_eq]
  exact hissue.1

theorem unused_of_not_onDisk {d : Disk} {v : UInt64} (h : ¬ OnDisk d v) : Unused d k v := by
  intro raw hraw
  by_contra hne
  refine h (.inr ⟨k, raw, ?_, hraw⟩)
  rw [ExtTreeMap.mem_iff_isSome_getElem?]
  exact Option.isSome_iff_ne_none.mpr hne

/-- The version a creating operation gets is new. -/
theorem World.Orderly.unused (h : w.Orderly) {op : KeyOp} (hop : op.creates)
    (hinc : (op.prog k).Always exec Increasing w) (habs : w.Absent k) :
    Unused w.disk k w.nextIssue := by
  have hlt : w.versionClock < w.nextIssue := by
    cases op with
    | hset pairs => exact increasing_loadOrCreate habs hinc
    | sadd members => exact increasing_loadOrCreate habs hinc
    | zadd pairs => exact increasing_loadOrCreate habs hinc
    | push values left => exact increasing_loadOrCreate habs hinc
    | _ => cases hop
  exact unused_of_not_onDisk (h.bounded.not_onDisk ⟨hlt, fun _ hv => hv.elim⟩)

end Orderly

/-! ## One step -/

theorem Stage.decodes {k : Bytes} {w s : World} {ph : Phase} {al : Allowed} (h : Stage k w ph s)
    (hph : ph.settled al) (hw : w.Orderly) (raw : Bytes) (hraw : s.disk[metaKey k]? = some raw) :
    ∃ m, Meta.decode raw = some m := by
  have hput : ∀ {d : Disk} {v : UInt64} {recs : WriteBatch} {m : Meta}, Records k v recs →
      (applyBatch d (recs ++ [.put (metaKey k) m.encode]))[metaKey k]? = some raw →
      ∃ m, Meta.decode raw = some m := by
    intro d v recs m hr hp
    rw [getElem?_applyBatch_concat, WriteOp.key, if_pos rfl] at hp
    exact ⟨m, Option.some.inj hp ▸ m.decode_encode⟩
  have hremoved : ¬ Removed k w (w.versions.erase k) s.toStore := by
    rintro ⟨m, recs, -, -, -, hst⟩
    rw [hst, getElem?_erase_bytes, if_pos rfl] at hraw
    cases hraw
  have hcleared : ∀ {st : Store}, Cleared k w.toStore st → st.disk[metaKey k]? ≠ some raw := by
    intro st hst he
    rw [hst.getElem?_metaKey] at he
    cases he
  cases ph with
  | start =>
    obtain rfl : s = w := h
    exact hw.decodes k raw hraw
  | live m =>
    rw [h.2.2] at hraw
    exact hw.decodes k raw hraw
  | absent => exact absurd hraw (hcleared h.2.2)
  | created v =>
    obtain ⟨-, -, st, hst, he⟩ := h
    rw [he] at hraw
    exact absurd (show st.disk[metaKey k]? = some raw from hraw) (hcleared hst)
  | done =>
    obtain ⟨st, clock⟩ := s
    obtain ⟨hf, -⟩ := h
    cases hf with
    | updated hl hr hm ht hv => exact hput hr hraw
    | created hl hst hr hm hv he => exact hput hr hraw
    | string hm => exact hput (Records.nil : Records k 0 []) hraw
  | gone => exact absurd h.2 hremoved
  | emptied => exact absurd h.2 hremoved
  | _ => exact hph.elim

theorem decodes_run {w : World} (hw : w.Orderly) (op : Op) (k raw : Bytes)
    (hraw : (op.run w).2.disk[metaKey k]? = some raw) : ∃ m, Meta.decode raw = some m := by
  cases op with
  | keyed key op =>
    by_cases hk : key.1 = k
    · subst hk
      obtain ⟨ph, hph, hs⟩ := op.run_stage key w
      exact hs.decodes hph hw raw hraw
    · rw [op.run_getElem?_of_ne key hk (.inl rfl)] at hraw
      exact hw.decodes k raw hraw
  | dbsize => exact hw.decodes k raw hraw
  | rawSubkeyCount => exact hw.decodes k raw hraw
  | compact => exact hw.decodes k raw ((getElem?_compact_metaKey _ w.toStore k).symm.trans hraw)
  | flushAll =>
    have hgone : (flushed w.disk)[metaKey k]? = none := by
      rw [getElem?_flushed, if_pos (.inl ⟨k, rfl⟩)]
    exact nomatch hgone.symm.trans hraw

theorem orderly_step {w : World} {e : Event} (he : Ascending w e) (hw : w.Orderly) :
    (e.apply w).Orderly := by
  match e with
  | .run op =>
    have hself : Shadow w w := ⟨rfl, rfl, rfl, ⟨hw.installed, hw.installed⟩, fun _ => .inl rfl⟩
    exact ⟨agrees_run hw.agrees op,
      (op.runEnv_eq (Stream'.const fun _ => false) hw.agrees hself hw.bounded he).2.2,
      gcInstalled_run op.prog hw.installed, decodes_run hw op⟩
  | .failing op n => exact he.elim
  | .restart clock => exact he.elim

theorem orderly_compact {w : World} (sel : Bytes → Bool) (hw : w.Orderly) : (w.compact sel).Orderly where
  agrees k v hv := hw.agrees k v ((diskVersion_compact sel w.toStore k).symm.trans hv)
  bounded v hv := hw.bounded v (onDisk_compact hv)
  installed := hw.installed
  decodes k raw hraw := hw.decodes k raw ((getElem?_compact_metaKey sel w.toStore k).symm.trans hraw)

/-! ## Keys a step does not write to -/

/-- The type whose elements an operation adds or removes. -/
def KeyOp.kind : KeyOp → Option UInt8
  | .hset _ | .hdel _ => some TYPE_HASH
  | .sadd _ | .srem _ => some TYPE_SET
  | .zadd _ | .zrem _ => some TYPE_ZSET
  | .push _ _ | .pop _ _ => some TYPE_LIST
  | _ => none

section Kind

variable {w : World} {m : Meta} {op : KeyOp} {t : UInt8}

theorem run_keyed {α : Type} (key : Key) (op : KeyOp) {p : StoreM α} {g : α → Reply} {a : α}
    (hp : op.prog key.1 = g <$> p) (h : (p.run exec w).1 = .ok a) :
    ((Op.keyed key op).run w).1 = .ok (g a) ∧ ((Op.keyed key op).run w).2 = (p.run exec w).2 := by
  rw [Op.run, Op.prog, hp, Prog.run_map, h]
  exact ⟨rfl, rfl⟩

theorem run_wrongType (key : Key) (hkind : op.kind = some t) (hlive : w.liveMeta key.1 = some m)
    (ht : m.typeId ≠ t) : ((Op.keyed key op).run w).2.disk = w.disk := by
  have hload : ∀ {α : Type} (u : UInt8) (init : Meta → Meta) (f : Meta → StoreM α) (g : α → Reply),
      m.typeId ≠ u → ((g <$> (loadOrCreate key.1 u init >>= f)).run exec w).2.disk = w.disk := by
    intro α u init f g hu
    rw [loadOrCreate, Prog.bind_assoc]
    exact run_typed_wrong hlive hu _ g
  cases op with
  | hset pairs =>
    obtain rfl := Option.some.inj hkind
    exact hload _ _ _ _ ht
  | sadd members =>
    obtain rfl := Option.some.inj hkind
    exact hload _ _ _ _ ht
  | zadd pairs =>
    obtain rfl := Option.some.inj hkind
    exact hload _ _ _ _ ht
  | push values left =>
    obtain rfl := Option.some.inj hkind
    exact hload _ _ _ _ ht
  | hdel fields =>
    obtain rfl := Option.some.inj hkind
    exact run_typed_wrong hlive ht _ _
  | srem members =>
    obtain rfl := Option.some.inj hkind
    exact run_typed_wrong hlive ht _ _
  | zrem members =>
    obtain rfl := Option.some.inj hkind
    exact run_typed_wrong hlive ht _ _
  | pop count left =>
    obtain rfl := Option.some.inj hkind
    exact run_typed_wrong hlive ht _ _
  | _ => cases hkind

/-- The metadata that an operation leaves is of the type and version it found, or of the
version it issues for a key that is not live. -/
theorem readMeta_run (key : Key) {m' : Meta}
    (hm' : readMeta ((Op.keyed key op).run w).2.disk key.1 = some m') (hc : m'.composite) :
    (∃ m, readMeta w.disk key.1 = some m ∧ m.typeId = m'.typeId ∧ m.version = m'.version) ∨
      w.liveMeta key.1 = none ∧ m'.version = w.nextIssue := by
  obtain ⟨ph, hph, hs⟩ := op.run_stage key w
  have hmissing : ∀ {d : Disk}, d[metaKey key.1]? = none → readMeta d key.1 ≠ some m' := by
    intro d hd he
    rw [readMeta, hd] at he
    cases he
  change readMeta ((op.prog key.1).run exec w).2.disk key.1 = some m' at hm'
  generalize ((op.prog key.1).run exec w).2 = s at hs hm'
  have hremoved : ¬ Removed key.1 w (w.versions.erase key.1) s.toStore := by
    rintro ⟨m, recs, -, -, -, hst⟩
    rw [hst] at hm'
    exact hmissing (by rw [getElem?_erase_bytes, if_pos rfl]) hm'
  cases ph with
  | start =>
    obtain rfl : s = w := hs
    exact .inl ⟨m', hm', rfl, rfl⟩
  | live m₀ =>
    rw [hs.2.2] at hm'
    exact .inl ⟨m', hm', rfl, rfl⟩
  | absent => exact absurd hm' (hmissing hs.2.2.getElem?_metaKey)
  | created v =>
    obtain ⟨-, -, st, hst, hs⟩ := hs
    rw [hs] at hm'
    exact absurd hm' (hmissing hst.getElem?_metaKey)
  | done =>
    obtain ⟨st, clock⟩ := s
    obtain ⟨hf, -⟩ := hs
    cases hf with
    | updated hl hr hm ht hv =>
      have he := (readMeta_putMeta hr _ _ _).symm.trans hm'
      rw [if_pos rfl] at he
      obtain rfl := Option.some.inj he
      exact .inl ⟨_, readMeta_of_liveMeta hl, ht.symm, hv.symm⟩
    | created hl hst hr hm hv he =>
      have he := (readMeta_putMeta hr _ _ _).symm.trans hm'
      rw [if_pos rfl] at he
      obtain rfl := Option.some.inj he
      exact .inr ⟨hl, hv⟩
    | string hm =>
      have he := (readMeta_putMeta (Records.nil : Records key.1 0 []) _ _ _).symm.trans hm'
      rw [if_pos rfl] at he
      rw [← Option.some.inj he, Meta.composite, hm] at hc
      cases hc
  | gone => exact absurd hs.2 hremoved
  | emptied => exact absurd hs.2 hremoved
  | _ => exact hph.elim

/-- On a live key of its type an operation leaves no metadata of another type. -/
theorem run_typeId_live (key : Key) (hlive : w.liveMeta key.1 = some m) {m' : Meta}
    (hm' : readMeta ((Op.keyed key op).run w).2.disk key.1 = some m') (hc : m'.composite) :
    m'.typeId = m.typeId := by
  obtain ⟨m₀, hm₀, ht, -⟩ | ⟨hnone, -⟩ := readMeta_run key hm' hc
  · obtain rfl : m₀ = m := Option.some.inj (hm₀.symm.trans (readMeta_of_liveMeta hlive))
    exact ht.symm
  · rw [hlive] at hnone
    cases hnone

/-- A creating operation makes a key of its own type, if it makes one. -/
theorem creation_typeId (key : Key) (hop : op.creates) (hkind : op.kind = some t)
    (habs : w.Absent key.1) (hnew : Unused w.disk key.1 w.nextIssue) {m' : Meta}
    (hm' : readMeta ((Op.keyed key op).run w).2.disk key.1 = some m') : m'.typeId = t := by
  obtain ⟨k, hk⟩ := key
  change readMeta ((op.prog k).run exec w).2.disk k = some m' at hm'
  have hwritten : ∀ {w' : World} {v : UInt64} {recs : WriteBatch} {n : Meta} {r : Except EngineError Reply},
      Records k v recs → (op.prog k).run exec w = (r, afterCreation w' k recs n) → n.typeId = t →
      m'.typeId = t := by
    intro w' v recs n r hr hrun ht
    rw [hrun, readMeta_afterCreation hr n] at hm'
    rw [← Option.some.inj hm', ht]
  -- Without elements `sadd` and `zadd` write nothing.
  have hempty : ∀ {w' : World} {r : Except EngineError Reply}, w'.disk = w.disk.erase (metaKey k) →
      (op.prog k).run exec w = (r, w') → m'.typeId = t := by
    intro w' r hd hrun
    rw [hrun, hd, readMeta, getElem?_erase_bytes, if_pos rfl] at hm'
    cases hm'
  cases op with
  | hset pairs =>
    obtain rfl := Option.some.inj hkind
    obtain ⟨w', hload, hd⟩ := run_loadOrCreate_absent habs TYPE_HASH fun m => m.setFieldCount 0
    have hrun := run_hset pairs hload
    exact hwritten (fieldPuts_records (v := w.nextIssue) hk pairs)
      ((Prog.run_map exec _ _ _).trans (by rw [hrun]; rfl)) rfl
  | sadd members =>
    obtain rfl := Option.some.inj hkind
    obtain ⟨w', hload, hd⟩ := run_loadOrCreate_absent habs TYPE_SET fun m => m.setFieldCount 0
    by_cases hne : members = []
    · subst hne
      have hrun : (GameStore.sadd k []).run exec w = (.ok 0, w') := by
        rw [GameStore.sadd, Prog.run_bind_ok _ hload]
        rfl
      exact hempty hd ((Prog.run_map exec _ _ _).trans (by rw [hrun]))
    · obtain ⟨seen, hseen, hrun⟩ := run_sadd_new hk hne hload (hd ▸ hnew.erase (metaKey k))
      exact hwritten (fieldPuts_records (v := w.nextIssue) hk _)
        ((Prog.run_map exec _ _ _).trans (by rw [hrun])) rfl
  | zadd pairs =>
    obtain rfl := Option.some.inj hkind
    obtain ⟨w', hload, hd⟩ := run_loadOrCreate_absent habs TYPE_ZSET fun m => m.setFieldCount 0
    by_cases hne : pairs = []
    · subst hne
      have hrun : (GameStore.zadd k []).run exec w = (.ok 0, w') := by
        rw [GameStore.zadd, Prog.run_bind_ok _ hload]
        rfl
      exact hempty hd ((Prog.run_map exec _ _ _).trans (by rw [hrun]))
    · have hrun := run_zadd_new hk hne hload (hd ▸ hnew.erase (metaKey k))
      exact hwritten (memberPuts_records (v := w.nextIssue) hk _)
        ((Prog.run_map exec _ _ _).trans (by rw [hrun])) rfl
  | push values left =>
    obtain rfl := Option.some.inj hkind
    obtain ⟨w', hload, hd⟩ := run_loadOrCreate_absent habs TYPE_LIST fun m =>
      m.setListBounds LIST_INITIAL_INDEX LIST_INITIAL_INDEX
    obtain ⟨n, hrun⟩ := run_push_new values left hload
    exact hwritten (fieldPuts_records (v := w.nextIssue) hk _)
      ((Prog.run_map exec _ _ _).trans (by rw [hrun])) rfl
  | _ => cases hop

theorem run_read_disk (key : Key) (hop : op.isRead) : ((Op.keyed key op).run w).2.disk = w.disk ∨
    ((Op.keyed key op).run w).2.disk[metaKey key.1]? = none := by
  obtain ⟨ph, hph, hs⟩ := op.run_stage key w
  have hwrites : ¬ (op.allowed (NewVersion key.1 w)).writes := fun h => nomatch hop.symm.trans h
  have hempties : ¬ (op.allowed (NewVersion key.1 w)).empties := by
    cases op <;> first | exact id | cases hop
  have hleaves : ¬ (op.allowed (NewVersion key.1 w)).leaves := by
    cases op <;> first | exact id | cases hop
  cases ph with
  | start => exact .inl (congrArg (fun s : World => s.disk) hs)
  | live m => exact .inl (congrArg Store.disk hs.2.2)
  | absent => exact .inr hs.2.2.getElem?_metaKey
  | done => exact absurd hph hwrites
  | gone => exact absurd hph hwrites
  | emptied => exact absurd hph hempties
  | created v => exact absurd hph hleaves
  | _ => exact hph.elim

/-- An operation that finds nothing and stops there leaves nothing. -/
theorem run_live_gone {α : Type} {k : Bytes} (habs : w.Absent k) (f : Option Meta → StoreM α)
    (g : α → Reply) {a : α} (hf : f none = pure a) :
    ((g <$> (loadLiveMeta k >>= f)).run exec w).2.disk[metaKey k]? = none := by
  obtain ⟨w', hload, hst, -⟩ := run_loadLiveMeta_absent habs
  rw [Prog.run_map, Prog.run_bind_ok _ hload, hf]
  exact hst.getElem?_metaKey

theorem run_typed_gone {α : Type} {k : Bytes} (habs : w.Absent k) (f : Option Meta → StoreM α)
    (g : α → Reply) {a : α} (hf : f none = pure a) :
    ((g <$> (loadTyped k t >>= f)).run exec w).2.disk[metaKey k]? = none := by
  rw [loadTyped, Prog.bind_assoc]
  exact run_live_gone habs _ g hf

/-- Metadata that differs at most in the deadline, with the same records under its
version. -/
structure Untouched (k : Bytes) (d d' : Disk) (m m' : Meta) : Prop where
  found : readMeta d k = some m
  same : m' = { m with expireMs := m'.expireMs }
  records : ∀ raw, RecordOf k m.version raw → d'[raw]? = d[raw]?

theorem Untouched.of_disk_eq {k : Bytes} {d d' : Disk} {m : Meta} (hd : d' = d)
    (hm : readMeta d' k = some m) : Untouched k d d' m m :=
  ⟨hd ▸ hm, rfl, fun _ _ => by rw [hd]⟩

theorem run_expireAt_untouched (key : Key) (hlive : w.liveMeta key.1 = some m) (deadline : UInt64)
    {m' : Meta} (hm' : readMeta ((Op.keyed key (.expireAt deadline)).run w).2.disk key.1 = some m') :
    Untouched key.1 w.disk ((Op.keyed key (.expireAt deadline)).run w).2.disk m m' := by
  obtain ⟨w', hload, hst, -⟩ := run_loadLiveMeta_live hlive
  have hdisk : ((Op.keyed key (.expireAt deadline)).run w).2.disk =
      applyBatch w.disk [.put (metaKey key.1) { m with expireMs := deadline }.encode] := by
    rw [Op.run, Op.prog, KeyOp.prog, Prog.run_map, expireAt, Prog.run_bind_ok _ hload, ← hst]
    rfl
  rw [hdisk] at hm' ⊢
  have he := (readMeta_putMeta (Records.nil : Records key.1 0 []) w.disk _ key.1).symm.trans hm'
  rw [if_pos rfl] at he
  obtain rfl := Option.some.inj he
  refine ⟨readMeta_of_liveMeta hlive, rfl, fun raw hraw => ?_⟩
  exact (getElem?_applyBatch_single _ _ _).trans (if_neg (hraw.ne_metaKey key.1).symm)

/-- On its own key: what is left and is not of the operation's type was there. -/
theorem KeyOp.run_untouched (key : Key) (hw : w.Orderly)
    (hinc : (op.prog key.1).Always exec Increasing w) {m' : Meta}
    (hm' : readMeta ((Op.keyed key op).run w).2.disk key.1 = some m') (hc : m'.composite)
    (hkind : op.kind ≠ some m'.typeId) :
    ∃ m, Untouched key.1 w.disk ((Op.keyed key op).run w).2.disk m m' := by
  have hleft : ((Op.keyed key op).run w).2.disk[metaKey key.1]? ≠ none := by
    intro h
    rw [readMeta, h] at hm'
    cases hm'
  have hread : op.isRead → ∃ m, Untouched key.1 w.disk ((Op.keyed key op).run w).2.disk m m' :=
    fun hop => ⟨m', .of_disk_eq ((run_read_disk key hop).resolve_right hleft) hm'⟩
  have hset : ∀ value expireMs, op ≠ .set value expireMs := by
    rintro value expireMs rfl
    have he := (readMeta_putMeta (Records.nil : Records key.1 0 []) w.disk _ key.1).symm.trans hm'
    rw [if_pos rfl] at he
    rw [← Option.some.inj he] at hc
    cases hc
  cases hlive : w.liveMeta key.1 with
  | some m =>
    have htype := run_typeId_live key hlive hm' hc
    cases hk : op.kind with
    | some t =>
      have ht : m.typeId ≠ t := by
        rintro rfl
        exact hkind (hk.trans (congrArg some htype.symm))
      exact ⟨m', .of_disk_eq (run_wrongType key hk hlive ht) hm'⟩
    | none =>
      cases op with
      | set value expireMs => exact absurd rfl (hset value expireMs)
      | del =>
        obtain ⟨w', hload, hst, -⟩ := run_loadLiveMeta_live hlive
        refine absurd ?_ hleft
        rw [Op.run, Op.prog, KeyOp.prog, Prog.run_map, GameStore.del, Prog.run_bind_ok _ hload]
        exact (getElem?_erase_bytes _ _ _).trans (if_pos rfl)
      | expireAt deadline => exact ⟨m, run_expireAt_untouched key hlive deadline hm'⟩
      | _ => first | exact hread rfl | cases hk
  | none =>
    have habs := hw.absent hlive
    have hcreates : ¬ op.creates := by
      intro hop
      obtain ⟨t, ht⟩ : ∃ t, op.kind = some t := by
        cases op <;> first | exact ⟨_, rfl⟩ | cases hop
      exact hkind (ht.trans (congrArg some (creation_typeId key hop ht habs (hw.unused hop hinc habs) hm').symm))
    cases op with
    | set value expireMs => exact absurd rfl (hset value expireMs)
    | del => exact (hleft (run_live_gone habs _ _ rfl)).elim
    | expireAt deadline => exact (hleft (run_live_gone habs _ _ rfl)).elim
    | hdel fields => exact (hleft (run_typed_gone habs _ _ rfl)).elim
    | srem members => exact (hleft (run_typed_gone habs _ _ rfl)).elim
    | zrem members => exact (hleft (run_typed_gone habs _ _ rfl)).elim
    | pop count left => exact (hleft (run_typed_gone habs _ _ rfl)).elim
    | _ => first | exact hread rfl | exact absurd rfl hcreates

/-- An operation changes the elements of `key`, of type `t`, only if it is of that
type and on that key. -/
def Op.changes (key : Key) (t : UInt8) : Op → Bool
  | .keyed key' op => key' = key ∧ op.kind = some t
  | _ => false

/-- Compaction drops no record of a key's current version. -/
theorem untouched_compact (key : Key) (hw : w.Orderly) (sel : Bytes → Bool) {m' : Meta}
    (hm' : readMeta (w.compact sel).disk key.1 = some m') (hc : m'.composite) :
    Untouched key.1 w.disk (w.compact sel).disk m' m' := by
  have hmeta := readMeta_congr (getElem?_compact_metaKey sel w.toStore key.1)
  have hm : readMeta w.disk key.1 = some m' := hmeta.symm.trans hm'
  refine ⟨hm, rfl, fun raw hraw => ?_⟩
  have hv : diskVersion w.disk key.1 = some m'.version := diskVersion_eq_some.mpr ⟨m', hm, hc, rfl⟩
  have hkeep : w.filterKeeps raw = true := by
    rw [Store.filterKeeps, ((liveKept_iff_agrees.mpr hw.agrees) key.1 m'.version hv).2 raw hraw,
      Bool.or_true]
  refine (getElem?_compact sel w.toStore raw).trans (if_neg ?_)
  simp [hkeep]

theorem Op.run_untouched {op : Op} (key : Key) (hw : w.Orderly) (he : Ascending w (.run op)) {m' : Meta}
    (hm' : readMeta (op.run w).2.disk key.1 = some m') (hc : m'.composite)
    (hop : op.changes key m'.typeId = false) : ∃ m, Untouched key.1 w.disk (op.run w).2.disk m m' := by
  cases op with
  | keyed key' op =>
    by_cases hk : key' = key
    · subst hk
      refine op.run_untouched key' hw he hm' hc ?_
      simpa [Op.changes] using hop
    · have hval : key'.1 ≠ key.1 := fun h => hk (Subtype.ext h)
      have hmeta := readMeta_congr (op.run_getElem?_of_ne key' hval (.inl rfl) w)
      exact ⟨m', hmeta.symm.trans hm', rfl, fun raw hraw =>
        op.run_getElem?_of_ne key' hval (.inr ⟨_, hraw⟩) w⟩
  | dbsize => exact ⟨m', .of_disk_eq rfl hm'⟩
  | rawSubkeyCount => exact ⟨m', .of_disk_eq rfl hm'⟩
  | compact => exact ⟨m', untouched_compact key hw (fun _ => true) hm' hc⟩
  | flushAll =>
    have hgone : (flushed w.disk)[metaKey key.1]? = none := by
      rw [getElem?_flushed, if_pos (.inl ⟨key.1, rfl⟩)]
    have hnone : readMeta (flushed w.disk) key.1 = none := by
      rw [readMeta, hgone]
      rfl
    cases hnone.symm.trans hm'

/-- Every key of type `t` has the property `C` of its metadata and its elements. -/
def Kept (t : UInt8) (C : Disk → Bytes → Meta → Prop) (d : Disk) : Prop :=
  ∀ (key : Key) (m : Meta), readMeta d key.1 = some m → m.typeId = t → C d key.1 m

/-- A step keeps such a property if the operations of the type keep it on their key,
unless it is live with another type. -/
theorem kept_run {C : Disk → Bytes → Meta → Prop} (ht : ∀ m : Meta, m.typeId = t → m.composite)
    (hC : ∀ d d' (key : Key) m m', Untouched key.1 d d' m m' → C d key.1 m → C d' key.1 m')
    (hw : w.Orderly) {op : Op}
    (he : Ascending w (.run op)) (h : Kept t C w.disk)
    (hop : ∀ key op', op = .keyed key op' → op'.kind = some t →
      (∀ m, w.liveMeta key.1 = some m → m.typeId = t) →
      ∀ m', readMeta (op.run w).2.disk key.1 = some m' → C (op.run w).2.disk key.1 m') :
    Kept t C (op.run w).2.disk := by
  intro key m' hm' htype
  cases hch : op.changes key m'.typeId with
  | false =>
    obtain ⟨m, hun⟩ := Op.run_untouched key hw he hm' (ht m' htype) hch
    have hsame : m.typeId = t := by
      rw [← htype, hun.same]
    exact hC _ _ _ _ _ hun (h key m hun.found hsame)
  | true =>
    cases op with
    | keyed key' op =>
      obtain ⟨rfl, hkind⟩ : key' = key ∧ op.kind = some m'.typeId := by simpa [Op.changes] using hch
      rw [htype] at hkind
      by_cases htyped : ∀ m, w.liveMeta key'.1 = some m → m.typeId = t
      · exact hop key' op rfl hkind htyped m' hm'
      · push Not at htyped
        obtain ⟨m, hlive, hne⟩ := htyped
        rw [run_wrongType key' hkind hlive hne] at hm' ⊢
        exact h key' m' hm' htype
    | _ => cases hch

end Kind

end GameStore
