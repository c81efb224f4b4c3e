import GameStore.Lib.Calls
import GameStore.Negotiation
import GameStore.Corruption
import GameStore.Expiry

/-!
# A command that is refused changes nothing

An operation fails, if at all, before its first write, with one exception: the load at its
beginning drops a key whose deadline has come. At any time from there on that key holds
nothing anyway. Commands that ask the store several times are `DEL`, which would fail only
at metadata that does not decode, and commands that read first.
-/

namespace GameStore

open Lib Std

/-! ## What the keys hold -/

/-- The metadata (the type, the deadline, and the value, the count or the ends of the list)
and the records of its version. -/
structure Holding where
  record : Meta
  elements : List (Bytes × Bytes)
  scores : List (Bytes × Bytes)

/-- What the key holds at the time `now`: nothing from its deadline on. -/
def holding (d : Disk) (now : UInt64) (k : Bytes) : Option Holding :=
  ((readMeta d k).filter fun m => m.expireMs = 0 || !decide (m.expireMs ≤ now)).map fun m =>
    ⟨m, prefixScan d (subkeyPrefix k m.version), prefixScan d (zscorePrefix k m.version)⟩

/-- Every key holds what it held, at any time that is not before a clock reading taken in
between. -/
def Unchanged (w w' : World) : Prop :=
  ∃ n, w'.ms = w.ms.drop n ∧
    ∀ now, (∀ i < n, w.ms.get i ≤ now) → ∀ k, holding w'.disk now k = holding w.disk now k

theorem Unchanged.refl (w : World) : Unchanged w w := ⟨0, rfl, fun _ _ _ => rfl⟩

theorem Unchanged.trans {w w' w'' : World} (h : Unchanged w w') (h' : Unchanged w' w'') : Unchanged w w'' := by
  obtain ⟨n, hms, hsame⟩ := h
  obtain ⟨n', hms', hsame'⟩ := h'
  refine ⟨n + n', by rw [hms', hms, Stream'.drop_drop], fun now hnow k => ?_⟩
  have hlater : ∀ i < n', w'.ms.get i ≤ now := by
    intro i hi
    rw [hms, Stream'.get_drop]
    exact hnow (n + i) (by omega)
  rw [hsame' now hlater k, hsame now (fun i hi => hnow i (by omega)) k]

/-- The calls that change records. -/
def Call.alters : Call → Prop
  | .write _ | .compactRange => True
  | _ => False

theorem unchanged_call (o : Call) (w : World) (ho : ¬ o.alters) : Unchanged w (exec o w).2 := by
  have hsame : ∀ w' : World, w'.ms = w.ms → w'.disk = w.disk → Unchanged w w' := fun w' hms hd =>
    ⟨0, hms, fun now _ k => by rw [hd]⟩
  cases o with
  | write batch => exact absurd trivial ho
  | compactRange => exact absurd trivial ho
  | nowMs => exact ⟨1, rfl, fun _ _ _ => rfl⟩
  | _ => exact hsame _ rfl rfl

/-! ## A due key is dropped -/

theorem holding_erase_of_ne {d : Disk} {k k' : Bytes} (hne : k ≠ k') (now : UInt64) :
    holding (d.erase (metaKey k)) now k' = holding d now k' := by
  have hmeta : readMeta (d.erase (metaKey k)) k' = readMeta d k' := by
    apply readMeta_congr
    rw [getElem?_erase_bytes, if_neg fun he => hne (metaKey_inj.mp he)]
  have hscan : ∀ pre : Bytes, (¬ pre <+: metaKey k) → prefixScan (d.erase (metaKey k)) pre = prefixScan d pre := by
    intro pre hpre
    apply prefixScan_congr
    intro raw hraw
    rw [getElem?_erase_bytes, if_neg]
    rintro rfl
    exact hpre hraw
  unfold holding
  rw [hmeta]
  congr 1
  funext m
  rw [hscan _ (by rintro ⟨rest, hrest⟩; cases hrest), hscan _ (by rintro ⟨rest, hrest⟩; cases hrest)]

theorem holding_erase_self (d : Disk) (now : UInt64) (k : Bytes) : holding (d.erase (metaKey k)) now k = none := by
  rw [holding, readMeta, getElem?_erase_bytes, if_pos rfl]
  rfl

theorem unchanged_dropped {w : World} {k : Bytes} (h : w.Expired k) :
    Unchanged w { w.without k with ms := w.ms.tail } := by
  obtain ⟨m, hm, he, hdue⟩ := h
  refine ⟨1, rfl, fun now hnow k' => ?_⟩
  have hlate : m.expireMs ≤ now := UInt64.le_trans hdue (hnow 0 (by omega))
  change holding (w.disk.erase (metaKey k)) now k' = holding w.disk now k'
  by_cases hk : k = k'
  · subst hk
    rw [holding_erase_self, holding, hm]
    simp [he, hlate]
  · exact holding_erase_of_ne hk now

theorem run_loadMeta_undecodable {w : World} {k raw : Bytes} (hraw : w.disk[metaKey k]? = some raw)
    (hd : Meta.decode raw = none) :
    (loadMeta k).run exec w = (.error (.corruption "undecodable metadata record"), w) := by
  have hget : exec (.get (metaKey k)) w = (some raw, w) := congrArg (·, w) hraw
  rw [loadMeta, Prog.perform_bind, Prog.run_call, hget]
  dsimp only
  rw [hd]
  rfl

/-- Loading a key changes nothing, whatever it finds. -/
theorem unchanged_loadLiveMeta (k : Bytes) (w : World) : Unchanged w ((loadLiveMeta k).run exec w).2 := by
  by_cases hexp : w.Expired k
  · rw [run_loadLiveMeta_expired hexp]
    exact unchanged_dropped hexp
  · cases hm : readMeta w.disk k with
    | none =>
      rw [loadLiveMeta]
      cases hraw : w.disk[metaKey k]? with
      | none =>
        rw [Prog.run_bind_ok _ (run_loadMeta_none hraw)]
        exact .refl w
      | some raw =>
        rw [readMeta, hraw] at hm
        rw [Prog.run_bind_err _ (run_loadMeta_undecodable hraw hm)]
        exact .refl w
    | some m =>
      rw [loadLiveMeta, Prog.run_bind_ok _ (run_loadMeta hm)]
      dsimp only
      split
      · rename_i he
        have hnow : exec .nowMs w = (w.ms.head, { w with ms := w.ms.tail }) := rfl
        rw [Prog.perform_bind, Prog.run_call, hnow]
        dsimp only
        rw [if_neg fun hdue => hexp ⟨m, hm, he, hdue⟩]
        exact unchanged_call .nowMs w id
      · exact .refl w

/-! ## Operations -/

/-- The program changes no record. -/
abbrev Quiet {α : Type} (p : StoreM α) : Prop := p.Only fun o => ¬ o.alters

/-- A run changes nothing, however it ends. -/
def Keeping {α : Type} (p : StoreM α) : Prop := ∀ w, Unchanged w (p.run exec w).2

/-- A run that fails changes nothing. -/
def Refusing {α : Type} (p : StoreM α) : Prop :=
  ∀ w e, (p.run exec w).1 = .error e → Unchanged w (p.run exec w).2

section Operations

variable {α β : Type} {k : Bytes}

theorem Keeping.refusing {p : StoreM α} (hp : Keeping p) : Refusing p := fun w _ _ => hp w

theorem keeping_of_quiet {p : StoreM α} (hp : Quiet p) : Keeping p :=
  hp.run Unchanged.refl (fun _ _ _ => Unchanged.trans) unchanged_call

theorem refusing_of_commits {p : StoreM α} (hp : p.Commits Call.alters) : Refusing p := fun _ _ he =>
  hp.run Unchanged.refl (fun _ _ _ => Unchanged.trans) unchanged_call he

theorem refusing_of_answers {p : StoreM α} (hp : Answers p) : Refusing p :=
  refusing_of_commits (Prog.commits_of_ends hp)

theorem Keeping.bind {p : StoreM α} {f : α → StoreM β} (hp : Keeping p) (hf : ∀ a, Keeping (f a)) :
    Keeping (p >>= f) := by
  intro w
  have hfirst := hp w
  rw [Prog.run_bind]
  rcases hrun : p.run exec w with ⟨e | a, w'⟩
  · rw [hrun] at hfirst
    exact hfirst
  · rw [hrun] at hfirst
    exact hfirst.trans (hf a w')

theorem Keeping.then {p : StoreM α} {f : α → StoreM β} (hp : Keeping p) (hf : ∀ a, Refusing (f a)) :
    Refusing (p >>= f) := by
  intro w e
  have hfirst := hp w
  rw [Prog.run_bind]
  rcases hrun : p.run exec w with ⟨e' | a, w'⟩
  · rw [hrun] at hfirst
    exact fun _ => hfirst
  · rw [hrun] at hfirst
    exact fun he => hfirst.trans (hf a w' e he)

/-! ### Loading -/

theorem keeping_loadLiveMeta (k : Bytes) : Keeping (loadLiveMeta k) := unchanged_loadLiveMeta k

theorem keeping_loadTyped (k : Bytes) (t : UInt8) : Keeping (loadTyped k t) := by
  refine (keeping_loadLiveMeta k).bind fun m => keeping_of_quiet ?_
  cases m with
  | none => trivial
  | some m =>
    dsimp only
    split <;> trivial

theorem keeping_loadOrCreate (k : Bytes) (t : UInt8) (init : Meta → Meta) : Keeping (loadOrCreate k t init) := by
  refine (keeping_loadTyped k t).bind fun m => keeping_of_quiet ?_
  cases m with
  | none => exact ⟨id, fun _ => ⟨id, fun _ => trivial⟩⟩
  | some m => trivial

/-! ### Reads -/

/-- A read of one record. -/
theorem quiet_get (raw : Bytes) {f : Option Bytes → StoreM α} (hf : ∀ v, Quiet (f v)) :
    Quiet (engineGet raw >>= f) := ⟨id, hf⟩

theorem quiet_scan (pre : Bytes) {f : List (Bytes × Bytes) → StoreM α} (hf : ∀ l, Quiet (f l)) :
    Quiet (scanPrefix pre >>= f) := ⟨id, hf⟩

/-- A program without calls. -/
theorem quiet_still {p : StoreM α} (hp : (∃ a, p = .ok a) ∨ ∃ e, p = .err e) : Quiet p := by
  obtain ⟨a, rfl⟩ | ⟨e, rfl⟩ := hp <;> trivial

/-- Nothing is asked of a missing key, and records are read of a key that is there. -/
theorem keeping_read (t : UInt8) {f : Option Meta → StoreM α} (hnone : Quiet (f none))
    (hsome : ∀ m, Quiet (f (some m))) : Keeping (loadTyped k t >>= f) := by
  refine (keeping_loadTyped k t).bind fun m => keeping_of_quiet ?_
  cases m with
  | none => exact hnone
  | some m => exact hsome m

theorem keeping_get (k : Bytes) : Keeping (get k) := by
  refine (keeping_loadLiveMeta k).bind fun m => keeping_of_quiet ?_
  cases m with
  | none => trivial
  | some m =>
    dsimp only
    split <;> trivial

theorem keeping_exists (k : Bytes) : Keeping («exists» k) :=
  (keeping_loadLiveMeta k).bind fun _ => keeping_of_quiet trivial

theorem keeping_typeOf (k : Bytes) : Keeping (typeOf k) := by
  refine (keeping_loadLiveMeta k).bind fun m => keeping_of_quiet ?_
  cases m with
  | none => trivial
  | some m => trivial

theorem keeping_pttl (k : Bytes) : Keeping (pttl k) := by
  refine (keeping_loadLiveMeta k).bind fun m => keeping_of_quiet ?_
  cases m with
  | none => trivial
  | some m =>
    dsimp only
    split
    · trivial
    · exact ⟨id, fun _ => trivial⟩

theorem keeping_hget (k field : Bytes) : Keeping (hget k field) :=
  keeping_read TYPE_HASH trivial fun _ => ⟨id, fun _ => trivial⟩

theorem keeping_hgetall (k : Bytes) : Keeping (hgetall k) :=
  keeping_read TYPE_HASH trivial fun _ => quiet_scan _ fun _ => trivial

theorem keeping_storedCount (k : Bytes) (t : UInt8) : Keeping (storedCount k t) :=
  keeping_read t trivial fun _ => trivial

theorem keeping_hexists (k field : Bytes) : Keeping (hexists k field) :=
  (keeping_hget k field).bind fun _ => keeping_of_quiet trivial

theorem keeping_sismember (k member : Bytes) : Keeping (sismember k member) :=
  keeping_read TYPE_SET trivial fun _ => quiet_get _ fun _ => trivial

theorem keeping_smembers (k : Bytes) : Keeping (smembers k) :=
  keeping_read TYPE_SET trivial fun _ => quiet_scan _ fun _ => trivial

theorem quiet_decodeStoredScore (raw : Bytes) : Quiet (decodeStoredScore raw) :=
  quiet_still (decodeStoredScore_still raw)

theorem keeping_zscore (k member : Bytes) : Keeping (zscore k member) := by
  refine keeping_read TYPE_ZSET trivial fun m => quiet_get _ fun v => ?_
  cases v with
  | none => trivial
  | some raw => exact (quiet_decodeStoredScore raw).bind fun _ => trivial

theorem keeping_zrange (k : Bytes) (start stop : Int64) : Keeping (zrange k start stop) := by
  refine keeping_read TYPE_ZSET trivial fun m => ?_
  dsimp only
  split
  · trivial
  · exact quiet_scan _ fun l => quiet_still (zrangeLoop_still _ _ _ l 0)

theorem keeping_zrangeByScore (k : Bytes) (min : F64) (minExclusive : Bool) (max : F64) (maxExclusive : Bool) :
    Keeping (zrangeByScore k min minExclusive max maxExclusive) :=
  keeping_read TYPE_ZSET trivial fun _ => quiet_scan _ fun l => quiet_still (zrangeByScoreLoop_still _ _ _ _ _ l)

theorem quiet_readElement (k : Bytes) (version index : UInt64) : Quiet (readElement k version index) := by
  refine quiet_get _ fun v => ?_
  cases v with
  | none => trivial
  | some value => trivial

theorem keeping_lrange (k : Bytes) (start stop : Int64) : Keeping (lrange k start stop) := by
  refine keeping_read TYPE_LIST trivial fun m => ?_
  dsimp only
  split
  · trivial
  · split
    · trivial
    · refine Prog.Only.foldlM (fun out offset => ?_) _ _
      exact (quiet_readElement k _ _).bind fun _ => trivial

theorem keeping_llen (k : Bytes) : Keeping (llen k) := by
  refine keeping_read TYPE_LIST trivial fun m => ?_
  dsimp only
  split <;> trivial

/-! ### Writes -/

theorem refusing_expireAt (k : Bytes) (deadline : UInt64) : Refusing (expireAt k deadline) := by
  refine (keeping_loadLiveMeta k).then fun m => refusing_of_answers ?_
  cases m with
  | none => rfl
  | some m => exact fun _ => rfl

/-- Elements are looked up one after the other, and then written with the count. -/
theorem refusing_elements {γ : Type} {p : StoreM Meta} (hp : Keeping p) {step : Meta → β → γ → StoreM β}
    (hstep : ∀ m b c, Quiet (step m b c)) (start : Meta → β) (cs : List γ) {finish : Meta → β → StoreM α}
    (hfinish : ∀ m b, Answers (finish m b)) :
    Refusing (p >>= fun m => cs.foldlM (step m) (start m) >>= finish m) :=
  hp.then fun m => refusing_of_commits
    ((Prog.Only.foldlM (hstep m) cs (start m)).commits_bind fun b => Prog.commits_of_ends (hfinish m b))

theorem quiet_hsetStep (k : Bytes) (v : UInt64) (t : Tally) (pair : Bytes × Bytes) : Quiet (hsetStep k v t pair) := by
  refine quiet_get _ fun raw => ?_
  cases raw <;> trivial

theorem refusing_hset (k : Bytes) (pairs : List (Bytes × Bytes)) : Refusing (hset k pairs) :=
  refusing_elements (keeping_loadOrCreate k _ _) (fun m => quiet_hsetStep k m.version) _ pairs
    fun _ _ _ => rfl

theorem quiet_saddStep (k : Bytes) (v : UInt64) (st : List Bytes × Tally) (member : Bytes) :
    Quiet (saddStep k v st member) := by
  unfold saddStep
  split
  · trivial
  · refine quiet_get _ fun raw => ?_
    cases raw <;> trivial

theorem refusing_sadd (k : Bytes) (members : List Bytes) : Refusing (sadd k members) := by
  refine refusing_elements (keeping_loadOrCreate k _ _) (fun m => quiet_saddStep k m.version) _ members
    fun m st => ?_
  split
  · exact fun _ => rfl
  · rfl

theorem quiet_zaddStep (k : Bytes) (v : UInt64) (t : Tally) (p : Bytes × F64) : Quiet (zaddStep k v t p) := by
  refine quiet_get _ fun raw => ?_
  cases raw with
  | none => trivial
  | some raw =>
    refine (quiet_decodeStoredScore raw).bind fun score => ?_
    split <;> trivial

theorem refusing_zadd (k : Bytes) (pairs : List (F64 × Bytes)) : Refusing (zadd k pairs) := by
  refine refusing_elements (keeping_loadOrCreate k _ _) (fun m => quiet_zaddStep k m.version) _
    (effectivePairs pairs) fun m t => ?_
  split
  · rfl
  · exact fun _ => rfl

/-- The removals: nothing on a missing key, else as above. -/
theorem refusing_removal {γ : Type} (t : UInt8) (step : Meta → β → γ → StoreM β)
    (hstep : ∀ m b c, Quiet (step m b c)) (start : Meta → β) (cs : List γ) (tally : β → Tally) :
    Refusing (loadTyped k t >>= fun m => match m with
      | some m => cs.foldlM (step m) (start m) >>= fun b => finishRemoval k m (tally b)
      | none => pure 0) := by
  refine (keeping_loadTyped k t).then fun m => refusing_of_commits ?_
  cases m with
  | none => trivial
  | some m =>
    exact (Prog.Only.foldlM (hstep m) cs (start m)).commits_bind fun b =>
      Prog.commits_of_ends (answers_finishRemoval k m (tally b))

theorem refusing_hdel (k : Bytes) (fields : List Bytes) : Refusing (hdel k fields) := by
  refine refusing_removal TYPE_HASH (fun m => hdelStep k m.version) (fun m t field => ?_) _ fields id
  refine quiet_get _ fun raw => ?_
  cases raw <;> trivial

theorem refusing_srem (k : Bytes) (members : List Bytes) : Refusing (srem k members) := by
  refine refusing_removal TYPE_SET (fun m => sremStep k m.version) (fun m st member => ?_) _ members
    Prod.snd
  unfold sremStep
  split
  · trivial
  · refine quiet_get _ fun raw => ?_
    cases raw <;> trivial

theorem refusing_zrem (k : Bytes) (members : List Bytes) : Refusing (zrem k members) := by
  refine refusing_removal TYPE_ZSET (fun m => zremStep k m.version) (fun m st member => ?_) _ members
    Prod.snd
  unfold zremStep
  split
  · trivial
  · refine quiet_get _ fun raw => ?_
    cases raw with
    | none => trivial
    | some raw => exact (quiet_decodeStoredScore raw).bind fun _ => trivial

theorem refusing_push (k : Bytes) (values : List Bytes) (left : Bool) : Refusing (push k values left) := by
  refine (keeping_loadOrCreate k _ _).then fun m => refusing_of_commits ?_
  dsimp only
  split
  · trivial
  · exact fun _ => ⟨fun _ => rfl, trivial⟩

theorem quiet_popLoop (k : Bytes) (v : UInt64) (left : Bool) (n : ℕ) (e : Ends) (out : List Bytes) :
    Quiet (popLoop k v left n e out) := by
  induction n generalizing e out with
  | zero => trivial
  | succ n ih =>
    unfold popLoop
    split
    · exact (quiet_readElement k v _).bind fun _ => ih _ _
    · trivial

theorem refusing_pop (k : Bytes) (count : ℕ) (left : Bool) : Refusing (pop k count left) := by
  refine (keeping_loadTyped k TYPE_LIST).then fun m => refusing_of_commits ?_
  cases m with
  | none => trivial
  | some m =>
    dsimp only
    split
    · trivial
    · refine (quiet_popLoop k m.version left count _ _).commits_bind fun r => ?_
      apply Prog.commits_of_ends
      split
      · rfl
      · split
        · exact fun _ _ _ => rfl
        · exact fun _ => rfl

end Operations

/-! ## Commands -/

def Frame.isError : Frame → Bool
  | .error _ => true
  | _ => false

/-- The command changes nothing. -/
def Steady {α : Type} (m : CommandM α) : Prop := ∀ w, Unchanged w (m w).2

/-- When it replies with an error here, the command has changed nothing. -/
def HarmlessAt (w : World) (m : CommandM Frame) : Prop := (m w).1.isError → Unchanged w (m w).2

def Harmless (m : CommandM Frame) : Prop := ∀ w, HarmlessAt w m

section Commands

variable {α β : Type}

theorem Steady.pure (a : α) : Steady (pure a : CommandM α) := Unchanged.refl

theorem Steady.ask {p : StoreM α} (hp : Keeping p) : Steady (ask p) := hp

theorem Steady.bind {m : CommandM α} {f : α → CommandM β} (hm : Steady m) (hf : ∀ a, Steady (f a)) :
    Steady (m >>= f) := fun w => (hm w).trans (hf _ _)

theorem Steady.harmless {m : CommandM Frame} (hm : Steady m) : Harmless m := fun w _ => hm w

theorem Steady.then {m : CommandM α} {f : α → CommandM Frame} (hm : Steady m) (hf : ∀ a, Harmless (f a)) :
    Harmless (m >>= f) := fun w he => (hm w).trans (hf _ _ he)

theorem harmless_pure (f : Frame) : Harmless (pure f) := (Steady.pure f).harmless

theorem harmless_replyWith {p : StoreM α} {reply : α → Frame} (hp : Refusing p)
    (hreply : ∀ a, (reply a).isError = false) : Harmless (replyWith p reply) := by
  intro w
  rw [HarmlessAt, replyWith_apply]
  cases hrun : (p.run exec w).1 with
  | ok a =>
    intro he
    rw [replyOf, hreply a] at he
    cases he
  | error e => exact fun _ => hp w e hrun

theorem harmless_integer {p : StoreM ℤ} (hp : Refusing p) : Harmless (replyWith p integer) :=
  harmless_replyWith hp fun _ => rfl

theorem isError_bulkOrNull (v : Option Bytes) : (bulkOrNull v).isError = false := by
  cases v <;> rfl

theorem keeping_nowMs : Keeping nowMs := keeping_of_quiet ⟨id, fun _ => trivial⟩

theorem steady_setOptions (opts : List Bytes) (expireMs : UInt64) : Steady (setOptions opts expireMs) := by
  fun_induction setOptions opts expireMs with
  | case8 =>
    rename_i ih
    refine (Steady.ask keeping_nowMs).bind fun r => ?_
    cases r with
    | error e => exact .pure _
    | ok now =>
      dsimp only
      split
      · exact .pure _
      · exact ih _
  | _ => exact .pure _

variable (ft : FloatText) (version : RespVersion) (args : List Bytes)

theorem harmless_set : Harmless (setCommand args) := by
  refine (steady_setOptions _ _).then fun r => ?_
  cases r with
  | error f => exact harmless_pure f
  | ok expireMs => exact harmless_replyWith (refusing_of_answers fun _ _ _ => rfl) fun _ => rfl

theorem steady_countKeys {p : Bytes → StoreM Bool} (hp : ∀ k, Keeping (p k)) (keys : List Bytes) (n : ℤ) :
    Steady (countKeys p keys n) := by
  induction keys generalizing n with
  | nil => exact .pure _
  | cons key keys ih =>
    refine (Steady.ask (hp key)).bind fun r => ?_
    rcases r with e | _ | _
    · exact .pure _
    · exact ih n
    · exact ih (n + 1)

theorem harmless_expireGeneric (unitMs : Int64) (cmd : String) : Harmless (expireGeneric unitMs cmd args) := by
  unfold expireGeneric
  split
  · exact harmless_pure _
  · split
    · exact harmless_pure _
    · refine (Steady.ask keeping_nowMs).then fun r => ?_
      cases r with
      | error e => exact harmless_pure _
      | ok now => exact harmless_replyWith (refusing_expireAt _ _) fun _ => rfl

theorem harmless_ttl : Harmless (ttlCommand args) := by
  refine harmless_replyWith (keeping_pttl _).refusing fun n => ?_
  dsimp only
  split <;> rfl

theorem harmless_hset : Harmless (hsetCommand args) := by
  unfold hsetCommand
  dsimp only
  split
  · exact harmless_pure _
  · refine harmless_replyWith (refusing_hset _ _) fun n => ?_
    split <;> rfl

theorem steady_hmgetLoop (key : Bytes) (fields : List Bytes) (items : List Frame) :
    Steady (hmgetLoop key fields items) := by
  induction fields generalizing items with
  | nil => exact .pure _
  | cons field fields ih =>
    refine (Steady.ask (keeping_hget key field)).bind fun r => ?_
    cases r with
    | error e => exact .pure _
    | ok v => exact ih _

theorem harmless_hgetall : Harmless (hgetallCommand version args) := by
  refine harmless_replyWith (keeping_hgetall _).refusing fun pairs => ?_
  cases version <;> rfl

theorem harmless_smembers : Harmless (smembersCommand version args) := by
  refine harmless_replyWith (keeping_smembers _).refusing fun members => ?_
  cases version <;> rfl

theorem harmless_zadd : Harmless (zaddCommand ft args) := by
  unfold zaddCommand
  dsimp only
  split
  · exact harmless_pure _
  · split
    · exact harmless_pure _
    · split
      · exact harmless_pure _
      · exact harmless_integer (refusing_zadd _ _)

theorem harmless_zscore : Harmless (zscoreCommand ft version args) := by
  refine harmless_replyWith (keeping_zscore _ _).refusing fun score => ?_
  cases score with
  | none => rfl
  | some score => cases version <;> rfl

theorem isError_rangeReply (withscores : Bool) (pairs : List (Bytes × F64)) :
    (rangeReply ft version withscores pairs).isError = false := by
  cases withscores with
  | false => rfl
  | true => cases version <;> rfl

theorem harmless_zrange : Harmless (zrangeCommand ft version args) := by
  unfold zrangeCommand
  split
  · dsimp only
    split
    · exact harmless_pure _
    · split
      · exact harmless_pure _
      · exact harmless_replyWith (keeping_zrange _ _ _).refusing (isError_rangeReply ft version _)
  · exact harmless_pure _

theorem harmless_zrangebyscore : Harmless (zrangebyscoreCommand ft version args) := by
  unfold zrangebyscoreCommand
  split
  · split
    · exact harmless_pure _
    · exact harmless_replyWith (keeping_zrangeByScore _ _ _ _ _).refusing fun _ =>
        isError_rangeReply ft version _ _
  · exact harmless_pure _

/-- The length is asked for before anything is popped. -/
theorem harmless_pop : Harmless (popCommand args) := by
  unfold popCommand
  dsimp only
  split
  · exact harmless_pure _
  · split
    · exact harmless_pure _
    · refine (Steady.ask (keeping_llen _)).then fun r => ?_
      cases r with
      | error e => exact harmless_pure _
      | ok n =>
        dsimp only
        split
        · exact harmless_pure _
        · refine harmless_replyWith (refusing_pop _ _ _) fun popped => ?_
          split
          · exact isError_bulkOrNull _
          · rfl

theorem harmless_lrange : Harmless (lrangeCommand args) := by
  unfold lrangeCommand
  split
  · exact harmless_replyWith (keeping_lrange _ _ _).refusing fun _ => rfl
  · exact harmless_pure _

end Commands

/-! ## Stores that come about -/

/-- Any call of any operation may be the next one, whoever makes it: this covers every
interleaving of any number of clients, and operations that stop between two calls.
Compactions run in between, the process is restarted, and another client has other clock
readings before it. -/
inductive Reached : World → Prop
  | opened (clock : Clock) : Reached (World.opened ∅ clock)
  | call {w : World} (h : Reached w) (op : Op) {o : Call} (ho : op.prog.Makes o) : Reached (exec o w).2
  | compact {w : World} (h : Reached w) (sel : Bytes → Bool) : Reached (w.compact sel)
  | restart {w : World} (h : Reached w) (clock : Clock) : Reached (World.opened w.disk clock)
  | turn {w : World} (h : Reached w) (clock : Clock) : Reached (w.at clock)

theorem Reached.run {w : World} (h : Reached w) (op : Op) : Reached (op.run w).2 :=
  Prog.run_makes (fun _ _ ho hs => hs.call op ho) h

/-- What is put under a metadata key is metadata. -/
def Call.Encodes : Call → Prop
  | .write batch => ∀ k raw, .put (metaKey k) raw ∈ batch → ∃ m, Meta.decode raw = some m
  | _ => True

theorem encodes_delete (key : Bytes) : (Call.write [.delete key]).Encodes := by
  intro k raw hput
  cases List.mem_singleton.mp hput

theorem Records.encodes {k : Bytes} {v : UInt64} {recs : WriteBatch} (hr : Records k v recs) :
    (Call.write recs).Encodes := fun k' _ hput => absurd rfl ((hr _ hput).ne_metaKey k')

theorem Records.encodes_putMeta {k : Bytes} {v : UInt64} {recs : WriteBatch} (hr : Records k v recs) (m : Meta) :
    (Call.write (recs ++ [.put (metaKey k) m.encode])).Encodes := by
  intro k' raw hput
  obtain hput | hput := List.mem_append.mp hput
  · exact hr.encodes k' raw hput
  · obtain ⟨-, rfl⟩ := WriteOp.put.inj (List.mem_singleton.mp hput)
    exact ⟨m, m.decode_encode⟩

theorem Move.encodes {k : Bytes} {ph ph' : Phase} {o : Call} {a : o.Ans} (h : Move k ph o a ph') : o.Encodes := by
  cases h with
  | expire => exact encodes_delete _
  | delete => exact encodes_delete _
  | deleteEmptied => exact encodes_delete _
  | update hr hm ht hv => exact hr.encodes_putMeta _
  | writeNew hr hm hv he => exact hr.encodes_putMeta _
  | strip hr hm => exact hr.encodes
  | writeString hm => exact (Records.nil : Records k 0 []).encodes_putMeta _
  | _ => trivial

instance (o : Call) : Nonempty o.Ans := by
  cases o <;> (unfold Call.Ans; infer_instance)

theorem only_encodes (op : Op) : op.prog.Only Call.Encodes := by
  cases op with
  | keyed key op =>
    have hobeys : Obeys False key.1 (Settles (op.allowed False)) op.begins (op.prog key.1) := op.obeys key.2
    exact hobeys.only (possible_of_not_fresh key.1) fun _ _ _ _ hmove => hmove.encodes
  | dbsize => exact ⟨trivial, fun _ => trivial⟩
  | rawSubkeyCount => exact ⟨trivial, fun _ => ⟨trivial, fun _ => trivial⟩⟩
  | compact => exact ⟨trivial, fun _ => trivial⟩
  | flushAll =>
    refine ⟨trivial, fun _ => ⟨trivial, fun _ => ⟨trivial, fun _ => ⟨?_, fun _ => ⟨trivial, fun _ => trivial⟩⟩⟩⟩⟩
    intro k raw hput
    obtain ⟨item, -, he⟩ := List.mem_map.mp hput
    cases he

theorem Decodes.call {w : World} (h : Decodes w.disk) {o : Call} (ho : o.Encodes) : Decodes (exec o w).2.disk := by
  cases o with
  | write batch =>
    intro k raw hraw
    obtain hold | hput := mem_of_getElem?_applyBatch hraw
    · exact h k raw hold
    · exact ho k raw hput
  | compactRange => exact fun k raw hraw => h k raw ((getElem?_compact_metaKey _ w.toStore k).symm.trans hraw)
  | _ => exact h

theorem Reached.decodes {w : World} (h : Reached w) : Decodes w.disk := by
  induction h with
  | opened clock => exact (orderly_opened clock).decodes
  | call h op ho ih => exact ih.call ((only_encodes op).of_makes ho)
  | @compact w h sel ih =>
    exact fun k raw hraw => ih k raw ((getElem?_compact_metaKey sel w.toStore k).symm.trans hraw)
  | restart h clock ih =>
    rw [opened_eq]
    exact ih
  | turn h clock ih => exact ih

/-! ## `DEL` of several keys -/

section Del

variable {w : World}

theorem Decodes.erase (h : Decodes w.disk) (k : Bytes) : Decodes (w.disk.erase (metaKey k)) :=
  Decodes.call (o := .write [.delete (metaKey k)]) h (encodes_delete _)

theorem Decodes.run_loadLiveMeta (h : Decodes w.disk) (k : Bytes) :
    ∃ m w', (loadLiveMeta k).run exec w = (.ok m, w') ∧ Decodes w'.disk := by
  cases hlive : w.liveMeta k with
  | none =>
    obtain ⟨w', hrun, hcleared, -⟩ := run_loadLiveMeta_absent (h.absent hlive)
    refine ⟨none, w', hrun, ?_⟩
    rw [hcleared.disk_eq]
    exact h.erase k
  | some m =>
    obtain ⟨w', hrun, hst, -⟩ := run_loadLiveMeta_live hlive
    refine ⟨some m, w', hrun, ?_⟩
    rw [hst]
    exact h

theorem Decodes.run_del (h : Decodes w.disk) (k : Bytes) :
    ∃ b w', (del k).run exec w = (.ok b, w') ∧ Decodes w'.disk := by
  obtain ⟨m, w', hrun, hw'⟩ := h.run_loadLiveMeta k
  rw [del, Prog.run_bind_ok _ hrun]
  cases m with
  | none => exact ⟨false, w', rfl, hw'⟩
  | some m => exact ⟨true, _, rfl, hw'.erase k⟩

theorem Decodes.countKeys_del (h : Decodes w.disk) (keys : List Bytes) (n : ℤ) :
    (countKeys del keys n w).1.isError = false := by
  induction keys generalizing n w with
  | nil => rfl
  | cons key keys ih =>
    obtain ⟨b, w', hrun, hw'⟩ := h.run_del key
    have hstep : countKeys del (key :: keys) n w = countKeys del keys (if b then n + 1 else n) w' := by
      rw [countKeys, CommandM.bind_run (show ask (del key) w = (.ok b, w') from hrun)]
      cases b <;> rfl
    rw [hstep]
    exact ih hw' _

end Del

/-! ## Dispatch -/

section Dispatch

variable (ft : FloatText) (args : List Bytes) (version : RespVersion) (connId : Int64)

/-- Every registered command. -/
theorem harmless_handler :
    ∀ spec ∈ standardCommands ft, ∀ w, Decodes w.disk → HarmlessAt w (spec.handler version args) := by
  have hall : ∀ {m : CommandM Frame}, Harmless m → ∀ w, Decodes w.disk → HarmlessAt w m := fun hm w _ => hm w
  have hbulk : ∀ v, (bulkOrNull v).isError = false := isError_bulkOrNull
  simp only [standardCommands, List.forall_mem_cons]
  refine ⟨hall (harmless_pure _), hall (harmless_pure _),
    hall (harmless_set args), hall (harmless_replyWith (keeping_get _).refusing hbulk), ?_,
    hall (steady_countKeys keeping_exists _ 0).harmless,
    hall (harmless_replyWith (keeping_typeOf _).refusing fun _ => rfl),
    hall (harmless_expireGeneric args _ _), hall (harmless_expireGeneric args _ _), hall (harmless_ttl args),
    hall (harmless_integer (keeping_pttl _).refusing),
    hall (harmless_hset args), hall (harmless_hset args),
    hall (harmless_replyWith (keeping_hget _ _).refusing hbulk), hall (steady_hmgetLoop _ _ _).harmless,
    hall (harmless_hgetall version args), hall (harmless_integer (refusing_hdel _ _)),
    hall (harmless_integer (keeping_storedCount _ _).refusing),
    hall (harmless_replyWith (keeping_hexists _ _).refusing fun _ => rfl),
    hall (harmless_integer (refusing_sadd _ _)), hall (harmless_integer (refusing_srem _ _)),
    hall (harmless_replyWith (keeping_sismember _ _).refusing fun _ => rfl),
    hall (harmless_smembers version args), hall (harmless_integer (keeping_storedCount _ _).refusing),
    hall (harmless_zadd ft args), hall (harmless_zscore ft version args), hall (harmless_zrange ft version args),
    hall (harmless_zrangebyscore ft version args), hall (harmless_integer (refusing_zrem _ _)),
    hall (harmless_integer (keeping_storedCount _ _).refusing),
    hall (harmless_integer (refusing_push _ _ _)), hall (harmless_integer (refusing_push _ _ _)),
    hall (harmless_pop args), hall (harmless_pop args), hall (harmless_lrange args),
    hall (harmless_integer (keeping_llen _).refusing),
    hall (harmless_integer (refusing_of_answers fun _ => rfl)),
    hall (harmless_integer (refusing_of_answers fun _ _ => rfl)),
    hall (harmless_replyWith (refusing_of_answers fun _ => rfl) fun _ => rfl),
    fun _ hf => absurd hf List.not_mem_nil⟩
  intro w hw he
  rw [show (delCommand args w).1.isError = false from hw.countKeys_del _ 0] at he
  cases he

theorem harmless_registryDispatch {w : World} (hw : Decodes w.disk) :
    HarmlessAt w (registryDispatch ft version args) := by
  cases args with
  | nil => exact harmless_pure _ w
  | cons first rest =>
    unfold registryDispatch
    dsimp only
    split
    · exact harmless_pure _ w
    · rename_i spec hfind
      split
      · exact harmless_handler ft _ version spec (List.mem_of_find?_eq_some hfind) w hw
      · exact harmless_pure _ w

theorem harmless_flush : Harmless (flush args) := by
  unfold flush
  dsimp only
  split
  · exact harmless_pure _
  · split
    · exact harmless_pure _
    · intro w he
      cases he

theorem harmless_dispatch {w : World} (hw : Decodes w.disk) (hname : upperName (arg args 0) ≠ "HELLO") :
    (dispatch ft args version connId w).1.reply.isError → Unchanged w (dispatch ft args version connId w).2 := by
  have hmap : ∀ m : CommandM Frame, HarmlessAt w m →
      ((Action.ofReply <$> m) w).1.reply.isError → Unchanged w ((Action.ofReply <$> m) w).2 := fun m hm => hm
  unfold dispatch
  rw [if_neg hname]
  split_ifs
  · exact fun _ => .refl w
  · exact fun _ => .refl w
  · exact fun _ => .refl w
  · exact fun _ => .refl w
  · exact hmap _ (harmless_flush args w)
  · exact hmap _ (harmless_registryDispatch ft args version hw)

/-- Only a `HELLO` that is not refused switches the codec. -/
theorem wireVersion_hello (he : (hello args version connId).reply.isError) :
    (hello args version connId).wireVersion version = version := by
  have hreply : ∀ v, (helloReply v connId).isError = false := by
    intro v
    cases v <;> rfl
  revert he
  unfold hello
  split
  · exact fun _ => rfl
  · split
    · intro he
      rw [hreply] at he
      cases he
    · exact fun _ => rfl

/-- Whatever was refused, and in whatever version: every key holds what it held, and the
connection speaks the version it spoke. -/
theorem refused_changes_nothing {w : World} (hw : Reached w) :
    let result := dispatch ft args version connId w
    result.1.reply.isError → Unchanged w result.2 ∧ result.1.wireVersion version = version := by
  intro result he
  by_cases hname : upperName (arg args 0) = "HELLO"
  · have hresult : result = (hello args version connId, w) := by
      unfold result
      rw [dispatch_hello ft connId version hname]
      rfl
    rw [hresult] at he ⊢
    exact ⟨.refl w, wireVersion_hello args version connId he⟩
  · exact ⟨harmless_dispatch ft args version connId hw.decodes hname he,
      wireVersion_dispatch ft connId version w hname⟩

/-- `HGET` on a list, with a deadline that is still to come. -/
theorem refused_changes_nothing_list :
    let w := ((Op.keyed Key.k (.expireAt 9)).run
      ((Op.keyed Key.k (.push [[97], [98]] false)).run (World.opened ∅ (stillClock 7 5))).2).2
    let result := dispatch FloatText.quarter [utf8 "HGET", Key.k.1, [102]] .v3 1 w
    result.1.reply.isError ∧ Unchanged w result.2 ∧ result.1.wireVersion .v3 = .v3 := by
  intro w result
  have hw : Reached w := ((Reached.opened (stillClock 7 5)).run _).run _
  have he : result.1.reply.isError = true := by decide +kernel
  exact ⟨he, refused_changes_nothing FloatText.quarter _ .v3 1 hw he⟩

end Dispatch

end GameStore
