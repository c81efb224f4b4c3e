import GameStore.Isolation

/-!
# An expired key is a missing key

The first operation on an expired key drops its metadata and goes on as if there
had been none, or is a `set` and never looks. Either way it leaves the store that
it leaves when the key is missing.
-/

namespace GameStore

open Lib Std

/-- The deadline of the key has passed at the next clock reading, and nobody has
dropped the key yet. -/
def World.Expired (w : World) (k : Bytes) : Prop :=
  ∃ m, readMeta w.disk k = some m ∧ m.expireMs ≠ 0 ∧ m.expireMs ≤ w.ms.head

/-- The same store with the key's metadata and map entry erased. -/
def World.without (w : World) (k : Bytes) : World :=
  { w with disk := w.disk.erase (metaKey k), versions := w.versions.erase k }

/-! ## Operations that load the key first -/

/-- The program loads the key's live metadata before anything else. -/
def Loads {α : Type} (k : Bytes) (p : StoreM α) : Prop := ∃ f, p = loadLiveMeta k >>= f

section Loads

variable {k : Bytes} {α β : Type}

theorem Loads.bind {p : StoreM α} (h : Loads k p) (g : α → StoreM β) : Loads k (p >>= g) := by
  obtain ⟨f, rfl⟩ := h
  exact ⟨fun m => f m >>= g, Prog.bind_assoc _ _ _⟩

theorem loads_loadTyped (t : UInt8) : Loads k (loadTyped k t) := ⟨_, rfl⟩

theorem loads_loadOrCreate (t : UInt8) (init : Meta → Meta) : Loads k (loadOrCreate k t init) :=
  (loads_loadTyped t).bind _

theorem loads_hget (field : Bytes) : Loads k (hget k field) := (loads_loadTyped TYPE_HASH).bind _

/-- Every operation but `set` loads its key first. -/
theorem KeyOp.loads {op : KeyOp} (hop : op.begins = .start) : Loads k (op.prog k) := by
  have htyped : ∀ {α β : Type} (t : UInt8) (f : Option Meta → StoreM α) (g : α → StoreM β),
      Loads k (loadTyped k t >>= f >>= g) := fun t f g => ((loads_loadTyped t).bind f).bind g
  have hnew : ∀ {α β : Type} (t : UInt8) (init : Meta → Meta) (f : Meta → StoreM α) (g : α → StoreM β),
      Loads k (loadOrCreate k t init >>= f >>= g) :=
    fun t init f g => ((loads_loadOrCreate t init).bind f).bind g
  have hlive : ∀ {α β : Type} (f : Option Meta → StoreM α) (g : α → StoreM β),
      Loads k (loadLiveMeta k >>= f >>= g) := fun f g => Loads.bind ⟨f, rfl⟩ g
  cases op with
  | set value expireMs => cases hop
  | get => exact hlive _ _
  | «exists» => exact hlive _ _
  | typeOf => exact hlive _ _
  | del => exact hlive _ _
  | expireAt expireAtMs => exact hlive _ _
  | pttl => exact hlive _ _
  | hset pairs => exact hnew _ _ _ _
  | sadd members => exact hnew _ _ _ _
  | zadd pairs => exact hnew _ _ _ _
  | push values left => exact hnew _ _ _ _
  | hexists field => exact ((loads_hget field).bind _).bind _
  | _ => exact htyped _ _ _

theorem obeys_absent {fresh : Prop} {Q : Except EngineError α → Phase → Prop}
    {f : Option Meta → StoreM α} (h : Obeys fresh k Q .start (loadLiveMeta k >>= f)) :
    Obeys fresh k Q .absent (f none) := by
  obtain ⟨ph, hmove, hn⟩ := h none fun v hv => nomatch hv
  cases hmove
  exact hn

end Loads

/-! ## From there on nobody looks at the clock -/

/-- The phases of an operation that has found nothing. -/
def Phase.building : Phase → Prop
  | .absent | .issued _ | .created _ | .done => True
  | _ => False

theorem Move.building {k : Bytes} {ph ph' : Phase} {o : Call} {a : o.Ans} (h : Move k ph o a ph')
    (hph : ph.building) : ph'.building := by
  cases h <;> trivial

theorem exec_ms {o : Call} (ho : o ≠ .nowMs) (w : World) (c : Stream' UInt64) :
    exec o { w with ms := c } = ((exec o w).1, { (exec o w).2 with ms := c }) := by
  cases o <;> first | rfl | exact absurd rfl ho

theorem run_building {α : Type} {k : Bytes} {Q : Except EngineError α → Phase → Prop} {p : StoreM α}
    (h : Obeys False k Q .absent p) (w : World) (c : Stream' UInt64) :
    p.run exec { w with ms := c } = ((p.run exec w).1, { (p.run exec w).2 with ms := c }) := by
  have hbuilds := h.keeping (I := Phase.building) (fun _ _ _ _ hmove => hmove.building)
    (show Phase.building .absent from trivial)
  refine Prod.ext_iff.mpr (hbuilds.run_congr (S := fun s t : World => t = { s with ms := c })
    (fun ph _ o => possible_of_not_fresh k ph o _) ?_ rfl)
  rintro ph s t o ph' rfl ⟨hmove, hph⟩
  have ho : o ≠ .nowMs := by
    rintro rfl
    cases hmove <;> exact hph
  rw [exec_ms ho]
  exact ⟨rfl, rfl⟩

/-! ## The two stores -/

section Expired

variable {w : World} {k : Bytes}

theorem run_loadLiveMeta_expired (h : w.Expired k) :
    (loadLiveMeta k).run exec w = (.ok none, { w.without k with ms := w.ms.tail }) := by
  obtain ⟨m, hm, he, hn⟩ := h
  have hnow : exec .nowMs w = (w.ms.head, { w with ms := w.ms.tail }) := rfl
  rw [loadLiveMeta, Prog.run_bind_ok _ (run_loadMeta hm)]
  dsimp only
  rw [if_pos he, Prog.perform_bind, Prog.run_call, hnow]
  dsimp only
  rw [if_pos hn]
  rfl

theorem run_loadLiveMeta_without : (loadLiveMeta k).run exec (w.without k) = (.ok none, w.without k) := by
  have hmiss : (w.without k).disk[metaKey k]? = none :=
    (getElem?_erase_bytes _ _ _).trans (if_pos rfl)
  rw [loadLiveMeta, Prog.run_bind_ok _ (run_loadMeta_none hmiss)]
  rfl

/-- `set` overwrites whatever is there. -/
theorem run_set_without (value : Bytes) (expireMs : UInt64) :
    (set k value expireMs).run exec (w.without k) = (set k value expireMs).run exec w := by
  have hdisk : ∀ raw : Bytes, (w.disk.erase (metaKey k)).insert (metaKey k) raw =
      w.disk.insert (metaKey k) raw := by
    intro raw
    apply ExtTreeMap.ext_getElem?
    intro key
    rw [getElem?_insert_bytes, getElem?_insert_bytes, getElem?_erase_bytes]
    split
    · rfl
    · rfl
  have hversions : (w.versions.erase k).erase k = w.versions.erase k := by
    apply ExtTreeMap.ext_getElem?
    intro key
    rw [getElem?_erase_bytes, getElem?_erase_bytes]
    split
    · rfl
    · rfl
  let m : Meta := { typeId := TYPE_STRING, version := w.nextIssue, expireMs := expireMs, payload := value }
  change (Except.ok (), World.mk { w.toStore with
      disk := (w.disk.erase (metaKey k)).insert (metaKey k) m.encode
      versions := (w.versions.erase k).erase k, versionClock := w.nextIssue } ⟨w.ms, w.micros.tail⟩) =
    (Except.ok (), World.mk { w.toStore with
      disk := w.disk.insert (metaKey k) m.encode
      versions := w.versions.erase k, versionClock := w.nextIssue } ⟨w.ms, w.micros.tail⟩)
  rw [hdisk, hversions]

theorem KeyOp.run_expired (key : Key) (op : KeyOp) (h : w.Expired key.1) :
    ((Op.keyed key op).run w).1 = ((Op.keyed key op).run (w.without key.1)).1 ∧
      ((Op.keyed key op).run w).2.toStore = ((Op.keyed key op).run (w.without key.1)).2.toStore := by
  by_cases hop : op.begins = .start
  · obtain ⟨f, hf⟩ := KeyOp.loads (k := key.1) hop
    have hobeys : Obeys False key.1 (Settles (op.allowed False)) op.begins (op.prog key.1) := op.obeys key.2
    rw [hop, hf] at hobeys
    have hrun := run_building (obeys_absent hobeys) (w.without key.1) w.ms.tail
    have hw : (Op.keyed key op).run w = (f none).run exec { w.without key.1 with ms := w.ms.tail } := by
      rw [Op.run, Op.prog, hf, Prog.run_bind_ok _ (run_loadLiveMeta_expired h)]
    have hmiss : (Op.keyed key op).run (w.without key.1) = (f none).run exec (w.without key.1) := by
      rw [Op.run, Op.prog, hf, Prog.run_bind_ok _ run_loadLiveMeta_without]
    rw [hw, hmiss, hrun]
    exact ⟨rfl, rfl⟩
  · cases op with
    | set value expireMs =>
      rw [Op.run, Op.run, Op.prog, KeyOp.prog, Prog.run_map, Prog.run_map, run_set_without]
      exact ⟨rfl, rfl⟩
    | _ => exact absurd rfl hop

end Expired

/-- The replies to a sequence of operations, each made at a time of its own. -/
def repliesAt : List (Clock × Op) → World → List (Except EngineError Reply)
  | [], _ => []
  | (clock, op) :: later, w => (op.run (w.at clock)).1 :: repliesAt later (op.run (w.at clock)).2

theorem repliesAt_congr (later : List (Clock × Op)) {s t : World} (h : s.toStore = t.toStore) :
    repliesAt later s = repliesAt later t := by
  cases later with
  | nil => rfl
  | cons step later =>
    have hat : s.at step.1 = t.at step.1 := congrArg (World.mk · step.1) h
    rw [repliesAt, repliesAt, hat]

/-- Whatever the expired key held, an operation on it returns what it returns on
the same store without it, and afterwards nothing tells the two stores apart. -/
theorem expired_indistinguishable_from_missing (w : World) (key : Key) (h : w.Expired key.1) (op : KeyOp) :
    ((Op.keyed key op).run w).1 = ((Op.keyed key op).run (w.without key.1)).1 ∧
      ∀ later : List (Clock × Op), repliesAt later ((Op.keyed key op).run w).2 =
        repliesAt later ((Op.keyed key op).run (w.without key.1)).2 := by
  obtain ⟨hreply, hstore⟩ := op.run_expired key h
  exact ⟨hreply, fun later => repliesAt_congr later hstore⟩

/-- A list with a deadline, looked at when the deadline has come. -/
def expiredList : World :=
  ((World.opened ∅ (stillClock 7 5)).after
    [.run (.keyed Key.k (.push [[97], [98]] false)), .run (.keyed Key.k (.expireAt 9))]).at
      (stillClock 9 6)

theorem expired_indistinguishable_expiredList : expiredList.Expired Key.k.1 ∧
    repliesAt [(stillClock 9 7, .keyed Key.k .hgetall)]
        ((Op.keyed Key.k (.hset [([102], [118])])).run expiredList).2 =
      repliesAt [(stillClock 9 7, .keyed Key.k .hgetall)]
        ((Op.keyed Key.k (.hset [([102], [118])])).run (expiredList.without Key.k.1)).2 := by
  have hexp : expiredList.Expired Key.k.1 :=
    ⟨{ typeId := TYPE_LIST, version := 5, expireMs := 9,
       payload := u64Be LIST_INITIAL_INDEX ++ u64Be (LIST_INITIAL_INDEX + 2) },
      by decide +kernel, by decide, by decide +kernel⟩
  exact ⟨hexp, (expired_indistinguishable_from_missing expiredList Key.k hexp _).2 _⟩

end GameStore
