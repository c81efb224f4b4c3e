import GameStore.Lists
import GameStore.ScoreOrder

/-!
# No corruption is ever reported

The operations answer `EngineError::Corruption` when a record does not decode or is missing.
All records share a few key families, and only the type and the version of the owner's
metadata tell them apart; in sequential runs what is found under a version is nevertheless
always of the owner's type.
-/

namespace GameStore

open Lib Std

/-! ## Runs with compactions between the operations -/

/-- An operation, or a compaction that meets the records `sel`. -/
inductive Turn
  | run (op : Op)
  | compact (sel : Bytes → Bool)

def Turn.apply : Turn → World → World
  | .run op, w => (op.run w).2
  | .compact sel, w => w.compact sel

/-- Each version issued is above the last one. -/
def Turn.Ascends (w : World) : Turn → Prop
  | .run op => Ascending w (.run op)
  | .compact _ => True

/-- How many elements are pushed to the incarnation `v` of the list at `k`. -/
def Turn.pushed (k : Bytes) (v : UInt64) (w : World) : Turn → ℕ
  | .run op => op.pushed k v w
  | .compact _ => 0

def World.afterTurns : World → List Turn → World
  | w, [] => w
  | w, t :: ts => (t.apply w).afterTurns ts

def Turns : World → List Turn → Prop
  | _, [] => True
  | w, t :: ts => t.Ascends w ∧ Turns (t.apply w) ts

def turnPushes (k : Bytes) (v : UInt64) : World → List Turn → ℕ
  | _, [] => 0
  | w, t :: ts => t.pushed k v w + turnPushes k v (t.apply w) ts

/-- What the runs keep: no list and no sorted set has a record missing or to spare. -/
structure Consistent (c : Bytes → UInt64 → ℕ) (w : World) : Prop where
  orderly : w.Orderly
  lists : Kept TYPE_LIST (ListCounted False c) w.disk
  zsets : Kept TYPE_ZSET (ZSetKept False) w.disk

section Turns

variable {w : World} {c : Bytes → UInt64 → ℕ}

theorem kept_compact {t : UInt8} {C : Disk → Bytes → Meta → Prop} (ht : ∀ m : Meta, m.typeId = t → m.composite)
    (hC : ∀ d d' (key : Key) m m', Untouched key.1 d d' m m' → C d key.1 m → C d' key.1 m')
    (hw : w.Orderly) (sel : Bytes → Bool) (h : Kept t C w.disk) : Kept t C (w.compact sel).disk := by
  intro key m hm htype
  have hun := untouched_compact key hw sel hm (ht m htype)
  exact hC _ _ key m m hun (h key m hun.found htype)

theorem consistent_turn {t : Turn} (ht : t.Ascends w) (hroom : ∀ k v, c k v + t.pushed k v w < 2 ^ 63)
    (h : Consistent c w) : Consistent (fun k v => c k v + t.pushed k v w) (t.apply w) := by
  cases t with
  | run op =>
    have he : Ascending w (.run op) := ht
    exact ⟨orderly_step he h.orderly, listsKept_step he False.elim hroom h.orderly h.lists,
      zsetsKept_step he False.elim h.orderly h.zsets⟩
  | compact sel =>
    exact ⟨orderly_compact sel h.orderly,
      kept_compact (fun m hm => composite_of_type (.inr (.inr (.inr hm))))
        (fun d d' key m m' hu => listCounted_untouched hu) h.orderly sel h.lists,
      kept_compact (fun m hm => composite_of_type (.inr (.inr (.inl hm))))
        (fun d d' key m m' hu => zsetKept_untouched hu) h.orderly sel h.zsets⟩

theorem consistent_turns {ts : List Turn} (hts : Turns w ts)
    (hroom : ∀ k v, c k v + turnPushes k v w ts < 2 ^ 63) (h : Consistent c w) :
    Consistent (fun k v => c k v + turnPushes k v w ts) (w.afterTurns ts) := by
  induction ts generalizing w c with
  | nil => exact h
  | cons t ts ih =>
    have hsum : ∀ k v, c k v + turnPushes k v w (t :: ts) =
        c k v + t.pushed k v w + turnPushes k v (t.apply w) ts := fun k v => (Nat.add_assoc _ _ _).symm
    simp only [hsum] at hroom ⊢
    refine ih hts.2 hroom (consistent_turn hts.1 (fun k v => ?_) h)
    have := hroom k v
    omega

theorem consistent_opened (clock : Clock) : Consistent (fun _ _ => 0) (World.opened ∅ clock) where
  orderly := orderly_opened clock
  lists := by
    intro key m hm
    rw [opened_eq, readMeta, ExtTreeMap.getElem?_empty] at hm
    cases hm
  zsets := zsetsKept_opened False clock

end Turns

/-! ## Records that decode -/

/-- No record is missing or undecodable. -/
structure Intact (d : Disk) : Prop where
  metas : ∀ k raw, d[metaKey k]? = some raw → ∃ m, Meta.decode raw = some m
  scores : ∀ (key : Key) m, readMeta d key.1 = some m → m.typeId = TYPE_ZSET →
    ∀ x raw, d[subkey key.1 m.version x]? = some raw → raw.length = 8
  suffixes : ∀ (key : Key) m, readMeta d key.1 = some m → m.typeId = TYPE_ZSET →
    ∀ rest, d[zscorePrefix key.1 m.version ++ rest]?.isSome → (splitScoreSuffix rest).isSome
  elements : ∀ (key : Key) m, readMeta d key.1 = some m → m.typeId = TYPE_LIST →
    ∃ head tail, m.listBounds = some (head, tail) ∧
      ∀ index, head ≤ index → index < tail → d[elementKey key.1 m.version index]?.isSome

theorem Consistent.intact {c : Bytes → UInt64 → ℕ} {w : World} (h : Consistent c w) : Intact w.disk where
  metas := h.orderly.decodes
  scores key m hm ht x raw hraw := by
    obtain ⟨score, hdual, -⟩ := (h.zsets key m hm ht).dual
    exact hdual.scoresDecode [x] x (List.mem_singleton_self x) raw hraw
  suffixes key m hm ht rest hrest := by
    obtain ⟨score, hdual, -⟩ := (h.zsets key m hm ht).dual
    obtain ⟨s, x, rfl⟩ := hdual.suffixes rest hrest
    have hlen : ¬ (encodeScore s ++ x).length < 8 := by
      rw [List.length_append, length_encodeScore]
      omega
    rw [splitScoreSuffix, if_neg hlen]
    rfl
  elements key m hm ht := by
    obtain ⟨l, -, hlist⟩ := h.lists key m hm ht
    obtain ⟨head, tail, hb, hs, -⟩ := hlist.ends
    refine ⟨head, tail, hb, fun index hlow hhigh => ?_⟩
    exact (hs.isSome_iff (listIndexField index)).mpr ⟨index, hlow, hhigh, rfl⟩

/-! ## Answers -/

/-- The answer is not a corruption error. -/
def Uncorrupt {α : Type} (r : Except EngineError α) : Prop := ∀ msg, r ≠ .error (.corruption msg)

theorem uncorrupt_ok {α : Type} {r : Except EngineError α} {a : α} (h : r = .ok a) : Uncorrupt r := by
  rw [h]
  intro msg he
  cases he

theorem Uncorrupt.map {α β : Type} {r : Except EngineError α} (h : Uncorrupt r) (g : α → β) :
    Uncorrupt (r.map g) := by
  cases r with
  | ok a => exact uncorrupt_ok rfl
  | error e =>
    intro msg he
    exact h msg (congrArg Except.error (Except.error.inj he))

section Answers

variable {α β : Type} {w : World} {k : Bytes}

/-- The program answers without an error, whatever it reads. -/
def Answers (p : StoreM α) : Prop := Prog.Ends (fun r => r.isOk = true) p

theorem Answers.bind {p : StoreM α} {f : α → StoreM β} (hp : Answers p) (hf : ∀ a, Answers (f a)) :
    Answers (p >>= f) :=
  Prog.Ends.bind hp (fun a _ => hf a) fun _ he => absurd he Bool.false_ne_true

theorem Answers.call {o : Call} {f : o.Ans → StoreM β} (hf : ∀ v, Answers (f v)) :
    Answers (Prog.perform o >>= f) := hf

theorem Answers.foldlM {γ : Type} {f : β → γ → StoreM β} (hf : ∀ b c, Answers (f b c)) (cs : List γ) (b : β) :
    Answers (cs.foldlM f b) :=
  Prog.Ends.foldlM (fun _ => rfl) hf cs b

theorem Answers.uncorrupt {p : StoreM α} (hp : Answers p) (w : World) : Uncorrupt (p.run exec w).1 := by
  have hok := Prog.Ends.run (h := exec) hp w
  cases hr : (p.run exec w).1 with
  | ok a => exact uncorrupt_ok rfl
  | error e =>
    rw [hr] at hok
    cases hok

theorem answers_finishRemoval (k : Bytes) (m : Meta) (t : Tally) : Answers (finishRemoval k m t) := by
  unfold finishRemoval
  split
  · split
    · exact fun _ _ _ => rfl
    · exact fun _ => rfl
  · rfl

/-! ### Loading -/

theorem uncorrupt_live (hw : w.Orderly) {f : Option Meta → StoreM α}
    (hf : ∀ m w', Uncorrupt ((f m).run exec w').1) : Uncorrupt ((loadLiveMeta k >>= f).run exec w).1 := by
  cases hlive : w.liveMeta k with
  | none =>
    obtain ⟨w', hload, -⟩ := run_loadLiveMeta_absent (hw.absent hlive)
    rw [Prog.run_bind_ok _ hload]
    exact hf none w'
  | some m =>
    obtain ⟨w', hload, -⟩ := run_loadLiveMeta_live hlive
    rw [Prog.run_bind_ok _ hload]
    exact hf (some m) w'

/-- A key of another type is refused, and that is no corruption. -/
theorem uncorrupt_wrong {m : Meta} (hlive : w.liveMeta k = some m) {t : UInt8} (ht : m.typeId ≠ t)
    (f : Option Meta → StoreM α) : Uncorrupt ((loadTyped k t >>= f).run exec w).1 := by
  obtain ⟨w', hload, -⟩ := run_loadLiveMeta_live hlive
  have htyped : (loadTyped k t).run exec w = (.error .wrongType, w') := by
    rw [loadTyped, Prog.run_bind_ok _ hload]
    dsimp only
    rw [if_neg ht]
    rfl
  rw [Prog.run_bind_err _ htyped]
  intro msg he
  cases he

theorem uncorrupt_wrongType {m : Meta} (hlive : w.liveMeta k = some m) {t : UInt8} (ht : m.typeId ≠ t)
    (init : Meta → Meta) (f : Meta → StoreM α) : Uncorrupt ((loadOrCreate k t init >>= f).run exec w).1 := by
  rw [loadOrCreate, Prog.bind_assoc]
  exact uncorrupt_wrong hlive ht _

theorem uncorrupt_typed (hw : w.Orderly) {t : UInt8} {f : Option Meta → StoreM α} (hnone : Answers (f none))
    (hsome : ∀ m, w.liveMeta k = some m → m.typeId = t → Uncorrupt ((loadTyped k t >>= f).run exec w).1) :
    Uncorrupt ((loadTyped k t >>= f).run exec w).1 := by
  cases hlive : w.liveMeta k with
  | none =>
    obtain ⟨w', hload, -⟩ := run_loadTyped_absent (hw.absent hlive) t
    rw [Prog.run_bind_ok _ hload]
    exact hnone.uncorrupt w'
  | some m =>
    by_cases ht : m.typeId = t
    · exact hsome m hlive ht
    · exact uncorrupt_wrong hlive ht f

/-- Most bodies read nothing that has to decode. -/
theorem uncorrupt_typed_answers (hw : w.Orderly) (t : UInt8) {f : Option Meta → StoreM α}
    (hf : ∀ m, Answers (f m)) : Uncorrupt ((loadTyped k t >>= f).run exec w).1 := by
  refine uncorrupt_typed hw (hf none) fun m hlive ht => ?_
  obtain ⟨w', hload, -⟩ := run_loadTyped_live hlive
  rw [← ht, Prog.run_bind_ok _ hload]
  exact (hf (some m)).uncorrupt w'

theorem uncorrupt_create (hw : w.Orderly) (t : UInt8) (init : Meta → Meta) {f : Meta → StoreM α}
    (hf : ∀ m, Answers (f m)) : Uncorrupt ((loadOrCreate k t init >>= f).run exec w).1 := by
  rw [loadOrCreate, Prog.bind_assoc]
  refine uncorrupt_typed_answers hw t fun m => ?_
  cases m with
  | none => exact fun _ _ => hf _
  | some m => exact hf m

/-! ### Strings, hashes and sets -/

theorem uncorrupt_get (hw : w.Orderly) (k : Bytes) : Uncorrupt ((get k).run exec w).1 := by
  refine uncorrupt_live hw fun m w' => ?_
  cases m with
  | none => exact uncorrupt_ok rfl
  | some m =>
    dsimp only
    split
    · intro msg he
      cases he
    · exact uncorrupt_ok rfl

theorem uncorrupt_typeOf (hw : w.Orderly) (k : Bytes) : Uncorrupt ((typeOf k).run exec w).1 := by
  refine uncorrupt_live hw fun m w' => Answers.uncorrupt ?_ w'
  cases m with
  | none => rfl
  | some m => rfl

theorem uncorrupt_del (hw : w.Orderly) (k : Bytes) : Uncorrupt ((del k).run exec w).1 := by
  refine uncorrupt_live hw fun m w' => Answers.uncorrupt ?_ w'
  cases m with
  | none => rfl
  | some m => exact fun _ _ => rfl

theorem uncorrupt_expireAt (hw : w.Orderly) (k : Bytes) (deadline : UInt64) :
    Uncorrupt ((expireAt k deadline).run exec w).1 := by
  refine uncorrupt_live hw fun m w' => Answers.uncorrupt ?_ w'
  cases m with
  | none => rfl
  | some m => exact fun _ => rfl

theorem uncorrupt_pttl (hw : w.Orderly) (k : Bytes) : Uncorrupt ((pttl k).run exec w).1 := by
  refine uncorrupt_live hw fun m w' => Answers.uncorrupt ?_ w'
  cases m with
  | none => rfl
  | some m =>
    dsimp only
    split
    · rfl
    · exact fun _ => rfl

theorem uncorrupt_storedCount (hw : w.Orderly) (k : Bytes) (t : UInt8) :
    Uncorrupt ((storedCount k t).run exec w).1 := by
  refine uncorrupt_typed_answers hw t fun m => ?_
  cases m with
  | none => rfl
  | some m => rfl

theorem uncorrupt_hset (hw : w.Orderly) (k : Bytes) (pairs : List (Bytes × Bytes)) :
    Uncorrupt ((hset k pairs).run exec w).1 := by
  refine uncorrupt_create hw _ _ fun m => (Answers.foldlM (fun t pair => Answers.call fun v => ?_) pairs _).bind
    fun t _ => rfl
  split <;> rfl

theorem uncorrupt_hget (hw : w.Orderly) (k field : Bytes) : Uncorrupt ((hget k field).run exec w).1 := by
  refine uncorrupt_typed_answers hw _ fun m => ?_
  cases m with
  | none => rfl
  | some m => exact fun _ => rfl

theorem uncorrupt_hexists (hw : w.Orderly) (k field : Bytes) : Uncorrupt ((hexists k field).run exec w).1 := by
  have hmap : hexists k field = Option.isSome <$> hget k field := rfl
  rw [hmap, Prog.run_map]
  exact (uncorrupt_hget hw k field).map _

theorem uncorrupt_hgetall (hw : w.Orderly) (k : Bytes) : Uncorrupt ((hgetall k).run exec w).1 := by
  refine uncorrupt_typed_answers hw _ fun m => ?_
  cases m with
  | none => rfl
  | some m => exact fun _ => rfl

theorem uncorrupt_hdel (hw : w.Orderly) (k : Bytes) (fields : List Bytes) :
    Uncorrupt ((hdel k fields).run exec w).1 := by
  refine uncorrupt_typed_answers hw _ fun m => ?_
  cases m with
  | none => rfl
  | some m =>
    refine (Answers.foldlM (fun t field => Answers.call fun v => ?_) fields _).bind
      fun t => answers_finishRemoval k m t
    split <;> rfl

theorem uncorrupt_sadd (hw : w.Orderly) (k : Bytes) (members : List Bytes) :
    Uncorrupt ((sadd k members).run exec w).1 := by
  refine uncorrupt_create hw _ _ fun m => (Answers.foldlM (fun st member => ?_) members _).bind fun st => ?_
  · unfold saddStep
    split
    · rfl
    · refine Answers.call fun v => ?_
      split <;> rfl
  · split
    · exact fun _ => rfl
    · rfl

theorem uncorrupt_srem (hw : w.Orderly) (k : Bytes) (members : List Bytes) :
    Uncorrupt ((srem k members).run exec w).1 := by
  refine uncorrupt_typed_answers hw _ fun m => ?_
  cases m with
  | none => rfl
  | some m =>
    refine (Answers.foldlM (fun st member => ?_) members _).bind fun st => answers_finishRemoval k m st.2
    unfold sremStep
    split
    · rfl
    · refine Answers.call fun v => ?_
      split <;> rfl

theorem uncorrupt_sismember (hw : w.Orderly) (k member : Bytes) :
    Uncorrupt ((sismember k member).run exec w).1 := by
  refine uncorrupt_typed_answers hw _ fun m => ?_
  cases m with
  | none => rfl
  | some m => exact fun _ => rfl

theorem uncorrupt_smembers (hw : w.Orderly) (k : Bytes) : Uncorrupt ((smembers k).run exec w).1 := by
  refine uncorrupt_typed_answers hw _ fun m => ?_
  cases m with
  | none => rfl
  | some m => exact fun _ => rfl

theorem uncorrupt_llen (hw : w.Orderly) (k : Bytes) : Uncorrupt ((llen k).run exec w).1 := by
  refine uncorrupt_typed_answers hw _ fun m => ?_
  cases m with
  | none => rfl
  | some m =>
    dsimp only
    split <;> rfl

end Answers

/-! ### Sorted sets -/

section Records

variable {w : World} {c : Bytes → UInt64 → ℕ} {key : Key}

theorem Consistent.uncorrupt_zadd (h : Consistent c w) {pairs : List (F64 × Bytes)}
    (he : Ascending w (.run (.keyed key (.zadd pairs)))) : Uncorrupt ((zadd key.1 pairs).run exec w).1 := by
  cases hlive : w.liveMeta key.1 with
  | none =>
    have habs := h.orderly.absent hlive
    obtain ⟨w', hload, hd⟩ := run_loadOrCreate_absent habs TYPE_ZSET fun m => m.setFieldCount 0
    have hnew : Unused w'.disk key.1 w.nextIssue :=
      hd ▸ (h.orderly.unused (show (KeyOp.zadd pairs).creates from rfl) he habs).erase (metaKey key.1)
    exact uncorrupt_ok (zadd_upserted key.2 hload (dualRecords_unused key.2 hnew) pairs).1
  | some m =>
    by_cases ht : m.typeId = TYPE_ZSET
    · obtain ⟨score, hdual, -⟩ := (h.zsets key m (readMeta_of_liveMeta hlive) ht).dual
      obtain ⟨w', hload, hst, -⟩ := run_loadOrCreate_live hlive fun m => m.setFieldCount 0
      have hd : w'.disk = w.disk := by rw [hst]
      rw [ht] at hload
      exact uncorrupt_ok (zadd_upserted key.2 hload (hd ▸ hdual) pairs).1
    · exact uncorrupt_wrongType hlive ht _ _

theorem Consistent.uncorrupt_zset (h : Consistent c w) {α : Type} {f : Option Meta → StoreM α}
    (hnone : Answers (f none))
    (hsome : ∀ m score, w.liveMeta key.1 = some m → m.typeId = TYPE_ZSET →
      DualRecords w.disk key.1 m.version score → Uncorrupt ((loadTyped key.1 TYPE_ZSET >>= f).run exec w).1) :
    Uncorrupt ((loadTyped key.1 TYPE_ZSET >>= f).run exec w).1 := by
  refine uncorrupt_typed h.orderly hnone fun m hlive ht => ?_
  obtain ⟨score, hdual, -⟩ := (h.zsets key m (readMeta_of_liveMeta hlive) ht).dual
  exact hsome m score hlive ht hdual

theorem zrangeByScoreLoop_answers {plen : ℕ} (min : F64) (minExclusive : Bool) (max : F64) (maxExclusive : Bool)
    {items : List (Bytes × Bytes)}
    (hsplit : ∀ item ∈ items, splitSuffix plen item.1 = .ok (scoredMember (item.1.drop plen))) :
    Answers (zrangeByScoreLoop plen min minExclusive max maxExclusive items) := by
  induction items with
  | nil => rfl
  | cons item items ih =>
    have hrest := ih fun i hi => hsplit i (List.mem_cons_of_mem _ hi)
    rw [zrangeByScoreLoop, hsplit item List.mem_cons_self, Prog.ok_bind]
    split
    · rfl
    · split
      · exact hrest
      · exact hrest.bind fun _ => rfl

theorem Consistent.uncorrupt_zrangeByScore (h : Consistent c w) (min : F64) (minExclusive : Bool) (max : F64)
    (maxExclusive : Bool) : Uncorrupt ((zrangeByScore key.1 min minExclusive max maxExclusive).run exec w).1 := by
  refine h.uncorrupt_zset rfl fun m score hlive ht hdual => ?_
  obtain ⟨w', hload, hst, -⟩ := run_loadTyped_live hlive
  have hd : w'.disk = w.disk := by rw [hst]
  have hscan : exec (.scanPrefix (zscorePrefix key.1 m.version)) w' =
      (prefixScan w.disk (zscorePrefix key.1 m.version), w') := by rw [← hd]; rfl
  rw [← ht, Prog.run_bind_ok _ hload]
  dsimp only
  rw [Prog.perform_bind, Prog.run_call, hscan]
  exact (zrangeByScoreLoop_answers min minExclusive max maxExclusive
    fun item => hdual.indexes.splitSuffix).uncorrupt w'

/-! ### Lists -/

theorem Consistent.uncorrupt_push (h : Consistent c w) {values : List Bytes} {left : Bool} :
    Uncorrupt ((push key.1 values left).run exec w).1 := by
  have hbody : ∀ {m : Meta} {head tail : UInt64} (w' : World), m.listBounds = some (head, tail) →
      (loadOrCreate key.1 TYPE_LIST fun m => m.setListBounds LIST_INITIAL_INDEX LIST_INITIAL_INDEX).run exec w =
        (.ok m, w') → Uncorrupt ((push key.1 values left).run exec w).1 := by
    intro m head tail w' hb hload
    rw [push, Prog.run_bind_ok _ hload, hb]
    refine Answers.uncorrupt ?_ w'
    exact fun _ => rfl
  cases hlive : w.liveMeta key.1 with
  | none =>
    obtain ⟨w', hload, -⟩ := run_loadOrCreate_absent (h.orderly.absent hlive) TYPE_LIST fun m =>
      m.setListBounds LIST_INITIAL_INDEX LIST_INITIAL_INDEX
    exact hbody w' (Meta.listBounds_setListBounds (m := newMeta TYPE_LIST _) rfl _ _) hload
  | some m =>
    by_cases ht : m.typeId = TYPE_LIST
    · obtain ⟨l, -, hlist⟩ := h.lists key m (readMeta_of_liveMeta hlive) ht
      obtain ⟨head, tail, hb, -⟩ := hlist.ends
      obtain ⟨w', hload, -⟩ := run_loadOrCreate_live hlive fun m =>
        m.setListBounds LIST_INITIAL_INDEX LIST_INITIAL_INDEX
      rw [ht] at hload
      exact hbody w' hb hload
    · exact uncorrupt_wrongType hlive ht _ _

theorem Consistent.uncorrupt_pop (h : Consistent c w) (count : ℕ) (left : Bool) :
    Uncorrupt ((pop key.1 count left).run exec w).1 := by
  refine uncorrupt_typed h.orderly rfl fun m hlive ht => ?_
  obtain ⟨l, -, hlist⟩ := h.lists key m (readMeta_of_liveMeta hlive) ht
  exact uncorrupt_ok (pop_lists key.2 hlive hlist count left).1

theorem Consistent.uncorrupt_lrange (h : Consistent c w) (hroom : ∀ k v, c k v < 2 ^ 63) (start stop : Int64) :
    Uncorrupt ((lrange key.1 start stop).run exec w).1 := by
  refine uncorrupt_typed h.orderly rfl fun m hlive ht => ?_
  obtain ⟨l, -, hlist⟩ := h.lists key m (readMeta_of_liveMeta hlive) ht
  obtain ⟨head, tail, hb, hs, -⟩ := hlist.ends
  exact uncorrupt_ok (run_lrange hlive ht hb hs.listed (Nat.lt_of_le_of_lt hlist.size (hroom _ _)) start stop)

/-! ## All operations -/

theorem Consistent.uncorrupt (h : Consistent c w) (hroom : ∀ k v, c k v < 2 ^ 63) {op : Op}
    (he : Ascending w (.run op)) : Uncorrupt (op.run w).1 := by
  have hmap : ∀ {α : Type} (g : α → Reply) {p : StoreM α}, Uncorrupt (p.run exec w).1 →
      Uncorrupt ((g <$> p).run exec w).1 := by
    intro α g p hp
    rw [Prog.run_map]
    exact hp.map g
  cases op with
  | keyed key op =>
    have hw := h.orderly
    cases op with
    | set value expireMs =>
      refine hmap _ (Answers.uncorrupt ?_ w)
      exact fun _ _ _ => rfl
    | get => exact hmap _ (uncorrupt_get hw key.1)
    | «exists» => exact hmap _ (uncorrupt_live hw fun m w' => uncorrupt_ok rfl)
    | typeOf => exact hmap _ (uncorrupt_typeOf hw key.1)
    | del => exact hmap _ (uncorrupt_del hw key.1)
    | expireAt deadline => exact hmap _ (uncorrupt_expireAt hw key.1 deadline)
    | pttl => exact hmap _ (uncorrupt_pttl hw key.1)
    | hset pairs => exact hmap _ (uncorrupt_hset hw key.1 pairs)
    | hget field => exact hmap _ (uncorrupt_hget hw key.1 field)
    | hgetall => exact hmap _ (uncorrupt_hgetall hw key.1)
    | hdel fields => exact hmap _ (uncorrupt_hdel hw key.1 fields)
    | hlen => exact hmap _ (uncorrupt_storedCount hw key.1 TYPE_HASH)
    | hexists field => exact hmap _ (uncorrupt_hexists hw key.1 field)
    | sadd members => exact hmap _ (uncorrupt_sadd hw key.1 members)
    | srem members => exact hmap _ (uncorrupt_srem hw key.1 members)
    | sismember member => exact hmap _ (uncorrupt_sismember hw key.1 member)
    | smembers => exact hmap _ (uncorrupt_smembers hw key.1)
    | scard => exact hmap _ (uncorrupt_storedCount hw key.1 TYPE_SET)
    | zadd pairs => exact hmap _ (h.uncorrupt_zadd he)
    -- From here on the dual records are needed, and the bounds of the lists.
    | zscore member =>
      refine hmap _ (h.uncorrupt_zset rfl fun m score hlive ht hdual msg herr => ?_)
      have hreply := run_zscore_dual hlive ht hdual member
      rw [Op.run, Op.prog, KeyOp.prog, Prog.run_map,
        show ((zscore key.1 member).run exec w).1 = .error (.corruption msg) from herr] at hreply
      cases hreply
    | zrem members =>
      refine hmap _ (h.uncorrupt_zset rfl fun m score hlive ht hdual => ?_)
      exact uncorrupt_ok (zrem_removed key.2 hlive ht hdual members).1
    | zcard => exact hmap _ (uncorrupt_storedCount hw key.1 TYPE_ZSET)
    | zrange start stop =>
      refine hmap _ (h.uncorrupt_zset rfl fun m score hlive ht hdual => ?_)
      exact uncorrupt_ok (run_zrange_counted hlive ht hdual.indexes start stop)
    | zrangeByScore min minExclusive max maxExclusive =>
      exact hmap _ (h.uncorrupt_zrangeByScore min minExclusive max maxExclusive)
    | push values left => exact hmap _ h.uncorrupt_push
    | pop count left => exact hmap _ (h.uncorrupt_pop count left)
    | lrange start stop => exact hmap _ (h.uncorrupt_lrange hroom start stop)
    | llen => exact hmap _ (uncorrupt_llen hw key.1)
  | dbsize =>
    refine hmap _ (Answers.uncorrupt ?_ w)
    exact fun _ => rfl
  | rawSubkeyCount =>
    refine hmap _ (Answers.uncorrupt ?_ w)
    exact fun _ _ => rfl
  | compact =>
    refine hmap _ (Answers.uncorrupt ?_ w)
    exact fun _ => rfl
  | flushAll =>
    refine hmap _ (Answers.uncorrupt ?_ w)
    exact fun _ _ _ _ _ => rfl

end Records

/-- In every state of a sequential run from an empty store, with compactions between the
operations and fewer than `2^63` elements pushed to an incarnation of a list: every record
decodes and none is missing, and no operation answers with a corruption error. -/
theorem corruption_unreachable (clock : Clock) (ts : List Turn) (hts : Turns (World.opened ∅ clock) ts)
    (hpush : ∀ k v, turnPushes k v (World.opened ∅ clock) ts < 2 ^ 63) :
    Intact ((World.opened ∅ clock).afterTurns ts).disk ∧
      ∀ op, Ascending ((World.opened ∅ clock).afterTurns ts) (.run op) →
        ∀ msg, (op.run ((World.opened ∅ clock).afterTurns ts)).1 ≠ .error (.corruption msg) := by
  have hc := consistent_turns (c := fun _ _ => 0) hts (by simpa using hpush) (consistent_opened clock)
  simp only [Nat.zero_add] at hc
  exact ⟨hc.intact, fun op he => hc.uncorrupt hpush he⟩

/-- A hash becomes a sorted set and then a list, with a compaction after each deletion. -/
def retyped : List Turn :=
  [.run (.keyed Key.k (.hset [([120], [1])])), .run (.keyed Key.k (.set [1] 0)), .compact fun _ => true,
    .run (.keyed Key.k .del), .run (.keyed Key.k (.zadd [(F64.NEG_ZERO, [120])])), .run (.keyed Key.k .del),
    .compact fun raw => raw.length % 2 = 0, .run (.keyed Key.k (.push [[120], [121]] true))]

theorem corruption_unreachable_retyped : Turns (World.opened ∅ (stillClock 7 5)) retyped ∧
    Intact ((World.opened ∅ (stillClock 7 5)).afterTurns retyped).disk ∧
    ∀ msg, ((Op.keyed Key.k (.lrange 0 (-1))).run ((World.opened ∅ (stillClock 7 5)).afterTurns retyped)).1 ≠
      .error (.corruption msg) := by
  have hts : Turns (World.opened ∅ (stillClock 7 5)) retyped :=
    ⟨ascending_of_check (by decide +kernel), ascending_of_check (by decide +kernel), trivial,
      ascending_of_check (by decide +kernel), ascending_of_check (by decide +kernel),
      ascending_of_check (by decide +kernel), trivial, ascending_of_check (by decide +kernel), trivial⟩
  have hpush : ∀ k v, turnPushes k v (World.opened ∅ (stillClock 7 5)) retyped < 2 ^ 63 := by
    intro k v
    have hle : turnPushes k v (World.opened ∅ (stillClock 7 5)) retyped ≤ 2 := by
      change 0 + (0 + (0 + (0 + (0 + (0 + (0 + (_ + 0))))))) ≤ 2
      simp only [Nat.zero_add, Nat.add_zero]
      exact Op.pushed_le k v _ Key.k [[120], [121]] true
    omega
  obtain ⟨hintact, hreplies⟩ := corruption_unreachable (stillClock 7 5) retyped hts hpush
  exact ⟨hts, hintact, hreplies _ (ascending_of_check (by decide +kernel))⟩

end GameStore
