import GameStore.Lib.Calls
import GameStore.Concurrency
import GameStore.Expiry
import GameStore.Negotiation

/-!
# What a client can observe

Two stores that hold the same keyspace may differ in everything else: the versions of
their keys, the garbage of earlier lives, where a list sits in its index space, the version
clock. As long as they read the same clock and nothing runs out, the operations that the
keyspace answers cannot tell them apart.
-/

namespace GameStore

open Lib Std

/-! ## How often the clock is read -/

/-- The program does not read the clock. -/
abbrev Calm {α : Type} (p : StoreM α) : Prop := p.Only (· ≠ .nowMs)

/-- The program loads the key's live metadata and does not read the clock after that. -/
def LoadsCalmly {α : Type} (k : Bytes) (p : StoreM α) : Prop :=
  ∃ f, p = loadLiveMeta k >>= f ∧ ∀ m, Calm (f m)

section Calm

variable {k : Bytes} {α β γ : Type}

theorem Calm.run {p : StoreM α} (hp : Calm p) (w : World) : (p.run exec w).2.ms = w.ms :=
  Prog.Only.run (R := fun s t : World => t.ms = s.ms) (fun _ => rfl) (fun _ _ _ h h' => h'.trans h)
    (fun o s ho => by cases o <;> first | rfl | exact absurd rfl ho) hp w

theorem calm_perform {o : Call} (ho : o ≠ .nowMs) : Calm (Prog.perform o) := ⟨ho, fun _ => trivial⟩

theorem calm_still {p : StoreM α} (hp : (∃ a, p = .ok a) ∨ ∃ e, p = .err e) : Calm p := by
  obtain ⟨a, rfl⟩ | ⟨e, rfl⟩ := hp <;> trivial

theorem LoadsCalmly.bind {p : StoreM α} (h : LoadsCalmly k p) {g : α → StoreM β} (hg : ∀ a, Calm (g a)) :
    LoadsCalmly k (p >>= g) := by
  obtain ⟨f, rfl, hf⟩ := h
  exact ⟨fun m => f m >>= g, Prog.bind_assoc _ _ _, fun m => (hf m).bind hg⟩

theorem LoadsCalmly.map {p : StoreM α} (h : LoadsCalmly k p) {f : α → β} : LoadsCalmly k (f <$> p) := by
  rw [Prog.map_eq]
  exact h.bind fun _ => trivial

theorem loadsCalmly_live {f : Option Meta → StoreM α} (hf : ∀ m, Calm (f m)) :
    LoadsCalmly k (loadLiveMeta k >>= f) := ⟨f, rfl, hf⟩

theorem loadsCalmly_loadTyped (t : UInt8) : LoadsCalmly k (loadTyped k t) := by
  refine loadsCalmly_live fun m => ?_
  cases m with
  | none => trivial
  | some m =>
    dsimp only
    split <;> trivial

theorem loadsCalmly_loadOrCreate (t : UInt8) (init : Meta → Meta) : LoadsCalmly k (loadOrCreate k t init) := by
  refine (loadsCalmly_loadTyped t).bind fun m => ?_
  cases m with
  | none => exact ⟨by simp, fun v => ⟨by simp, fun _ => trivial⟩⟩
  | some m => trivial

theorem calm_logicalDelete : Calm (logicalDelete k) := ⟨by simp, fun _ => ⟨by simp, fun _ => trivial⟩⟩

theorem calm_write (b : WriteBatch) (a : α) : Calm (do engineWrite b; pure a) := ⟨by simp, fun _ => trivial⟩

theorem calm_finishRemoval (m : Meta) (t : Tally) : Calm (finishRemoval k m t) := by
  unfold finishRemoval
  split
  · split
    · exact ⟨by simp, fun _ => calm_logicalDelete.bind fun _ => trivial⟩
    · exact calm_write _ _
  · trivial

theorem calm_read {o : Call} (ho : o ≠ .nowMs) {f : o.Ans → StoreM α} (hf : ∀ a, Calm (f a)) :
    Calm (Prog.perform o >>= f) := (calm_perform ho).bind hf

/-- A lookup, whatever it finds. -/
theorem calm_lookup {raw : Bytes} {f : Option Bytes → StoreM α} (hnone : Calm (f none))
    (hsome : ∀ value, Calm (f (some value))) : Calm (engineGet raw >>= f) := by
  refine calm_read (by simp) fun a => ?_
  cases a with
  | none => exact hnone
  | some value => exact hsome value

theorem calm_decodeStoredScore (raw : Bytes) : Calm (decodeStoredScore raw) := by
  unfold decodeStoredScore
  split <;> trivial

theorem calm_readElement (v index : UInt64) : Calm (readElement k v index) := by
  refine calm_read (by simp) fun a => ?_
  cases a <;> trivial

theorem calm_popLoop (v : UInt64) (left : Bool) (n : ℕ) (e : Ends) (out : List Bytes) :
    Calm (popLoop k v left n e out) := by
  induction n generalizing e out with
  | zero => trivial
  | succ n ih =>
    unfold popLoop
    split
    · exact (calm_readElement _ _).bind fun _ => ih _ _
    · trivial

/-- The operations that start with the live metadata of a type. -/
theorem loadsCalmly_typed {t : UInt8} {f : Option Meta → StoreM α} (hnone : Calm (f none))
    (hsome : ∀ m, Calm (f (some m))) : LoadsCalmly k (loadTyped k t >>= f) := by
  refine (loadsCalmly_loadTyped t).bind fun m => ?_
  cases m with
  | none => exact hnone
  | some m => exact hsome m

theorem loadsCalmly_new {t : UInt8} {init : Meta → Meta} {f : Meta → StoreM α} (hf : ∀ m, Calm (f m)) :
    LoadsCalmly k (loadOrCreate k t init >>= f) := (loadsCalmly_loadOrCreate t init).bind hf

theorem calm_elements {step : β → γ → StoreM β} (hstep : ∀ b c, Calm (step b c)) (cs : List γ) (b : β)
    {f : β → StoreM α} (hf : ∀ b, Calm (f b)) : Calm (cs.foldlM step b >>= f) :=
  (Prog.Only.foldlM hstep cs b).bind hf

/-! ### The bodies of the loops -/

theorem calm_hsetStep (v : UInt64) (t : Tally) (pair : Bytes × Bytes) : Calm (hsetStep k v t pair) :=
  calm_lookup trivial fun _ => trivial

theorem calm_hdelStep (v : UInt64) (t : Tally) (field : Bytes) : Calm (hdelStep k v t field) :=
  calm_lookup trivial fun _ => trivial

theorem calm_saddStep (v : UInt64) (st : List Bytes × Tally) (member : Bytes) : Calm (saddStep k v st member) := by
  unfold saddStep
  split
  · trivial
  · exact calm_lookup trivial fun _ => trivial

theorem calm_sremStep (v : UInt64) (st : List Bytes × Tally) (member : Bytes) : Calm (sremStep k v st member) := by
  unfold sremStep
  split
  · trivial
  · exact calm_lookup trivial fun _ => trivial

theorem calm_zaddStep (v : UInt64) (t : Tally) (pair : Bytes × F64) : Calm (zaddStep k v t pair) := by
  refine calm_lookup trivial fun raw => ?_
  refine (calm_decodeStoredScore raw).bind fun score => ?_
  split <;> trivial

theorem calm_zremStep (v : UInt64) (st : List Bytes × Tally) (member : Bytes) : Calm (zremStep k v st member) := by
  unfold zremStep
  split
  · trivial
  · refine calm_lookup trivial fun raw => ?_
    exact (calm_decodeStoredScore raw).bind fun _ => trivial

theorem loadsCalmly_pop (count : ℕ) (left : Bool) : LoadsCalmly k (GameStore.pop k count left) := by
  refine loadsCalmly_typed trivial fun m => ?_
  dsimp only
  split
  · trivial
  · refine (calm_popLoop _ _ _ _ _).bind fun r => ?_
    split
    · trivial
    · split
      · exact ⟨by simp, fun _ => calm_logicalDelete.bind fun _ => trivial⟩
      · exact calm_write _ _

theorem loadsCalmly_lrange (start stop : Int64) : LoadsCalmly k (GameStore.lrange k start stop) := by
  refine loadsCalmly_typed trivial fun m => ?_
  dsimp only
  split
  · trivial
  · split
    · trivial
    · apply Prog.Only.foldlM
      exact fun out offset => Prog.Only.bind (calm_readElement _ _) fun _ => trivial

/-- All operations but two look at the clock when they load their key or not at all. -/
theorem KeyOp.loadsCalmly {op : KeyOp} (hset : op.begins = .start) (hpttl : op ≠ .pttl) :
    LoadsCalmly k (op.prog k) := by
  cases op with
  | set value expireMs => cases hset
  | pttl => exact absurd rfl hpttl
  | get =>
    apply LoadsCalmly.map
    refine loadsCalmly_live fun m => ?_
    cases m with
    | none => trivial
    | some m =>
      dsimp only
      split <;> trivial
  | «exists» =>
    apply LoadsCalmly.map
    exact loadsCalmly_live fun _ => trivial
  | typeOf =>
    apply LoadsCalmly.map
    refine loadsCalmly_live fun m => ?_
    cases m <;> trivial
  | del =>
    apply LoadsCalmly.map
    refine loadsCalmly_live fun m => ?_
    cases m with
    | none => trivial
    | some m => exact calm_logicalDelete.bind fun _ => trivial
  | expireAt deadline =>
    apply LoadsCalmly.map
    refine loadsCalmly_live fun m => ?_
    cases m with
    | none => trivial
    | some m => exact calm_write _ _
  | hset pairs =>
    apply LoadsCalmly.map
    refine loadsCalmly_new fun m => ?_
    exact calm_elements (calm_hsetStep m.version) _ _ fun t => calm_write _ _
  | hget field =>
    apply LoadsCalmly.map
    refine loadsCalmly_typed trivial fun m => ?_
    exact calm_perform (by simp)
  | hgetall =>
    apply LoadsCalmly.map
    refine loadsCalmly_typed trivial fun m => ?_
    exact calm_read (by simp) fun _ => trivial
  | hdel fields =>
    apply LoadsCalmly.map
    refine loadsCalmly_typed trivial fun m => ?_
    exact calm_elements (calm_hdelStep m.version) _ _ fun t => calm_finishRemoval m t
  | hlen =>
    apply LoadsCalmly.map
    exact loadsCalmly_typed trivial fun m => trivial
  -- It calls `hget`.
  | hexists field =>
    apply LoadsCalmly.map
    have hget : LoadsCalmly k (GameStore.hget k field) :=
      loadsCalmly_typed trivial fun m => calm_perform (by simp)
    exact hget.bind fun _ => trivial
  | sadd members =>
    apply LoadsCalmly.map
    refine loadsCalmly_new fun m => ?_
    refine calm_elements (calm_saddStep m.version) _ _ fun st => ?_
    split
    · exact calm_write _ _
    · trivial
  | srem members =>
    apply LoadsCalmly.map
    refine loadsCalmly_typed trivial fun m => ?_
    exact calm_elements (calm_sremStep m.version) _ _ fun st => calm_finishRemoval m st.2
  | sismember member =>
    apply LoadsCalmly.map
    refine loadsCalmly_typed trivial fun m => ?_
    exact calm_read (by simp) fun _ => trivial
  | smembers =>
    apply LoadsCalmly.map
    refine loadsCalmly_typed trivial fun m => ?_
    exact calm_read (by simp) fun _ => trivial
  | scard =>
    apply LoadsCalmly.map
    exact loadsCalmly_typed trivial fun m => trivial
  | zadd pairs =>
    apply LoadsCalmly.map
    refine loadsCalmly_new fun m => ?_
    refine calm_elements (calm_zaddStep m.version) _ _ fun t => ?_
    split
    · trivial
    · exact calm_write _ _
  | zscore member =>
    apply LoadsCalmly.map
    refine loadsCalmly_typed trivial fun m => ?_
    refine calm_lookup trivial fun raw => ?_
    exact (calm_decodeStoredScore raw).bind fun _ => trivial
  | zrem members =>
    apply LoadsCalmly.map
    refine loadsCalmly_typed trivial fun m => ?_
    exact calm_elements (calm_zremStep m.version) _ _ fun st => calm_finishRemoval m st.2
  | zcard =>
    apply LoadsCalmly.map
    exact loadsCalmly_typed trivial fun m => trivial
  | zrange start stop =>
    apply LoadsCalmly.map
    refine loadsCalmly_typed trivial fun m => ?_
    dsimp only
    split
    · trivial
    · exact calm_read (by simp) fun l => calm_still (zrangeLoop_still _ _ _ l 0)
  | zrangeByScore min minExclusive max maxExclusive =>
    apply LoadsCalmly.map
    refine loadsCalmly_typed trivial fun m => ?_
    exact calm_read (by simp) fun l => calm_still (zrangeByScoreLoop_still _ _ _ _ _ l)
  | push values left =>
    apply LoadsCalmly.map
    refine loadsCalmly_new fun m => ?_
    split
    · trivial
    · exact calm_write _ _
  | pop count left =>
    apply LoadsCalmly.map
    exact loadsCalmly_pop count left
  | lrange start stop =>
    apply LoadsCalmly.map
    exact loadsCalmly_lrange start stop
  | llen =>
    apply LoadsCalmly.map
    refine loadsCalmly_typed trivial fun m => ?_
    dsimp only
    split <;> trivial

end Calm

/-- The key is absent from both disks, or has the same deadline on both. -/
def SameDeadline (d d' : Disk) (k : Bytes) : Prop :=
  d[metaKey k]? = none ∧ d'[metaKey k]? = none ∨
    ∃ m m', readMeta d k = some m ∧ readMeta d' k = some m' ∧ m'.expireMs = m.expireMs

section SameClock

variable {k : Bytes} {w w' : World}

theorem run_loadLiveMeta_ms {m : Meta} (h : readMeta w.disk k = some m) : ∃ v : World,
    (loadLiveMeta k).run exec w =
        (.ok (if m.expireMs ≠ 0 ∧ m.expireMs ≤ w.ms.head then none else some m), v) ∧
      v.ms = if m.expireMs = 0 then w.ms else w.ms.tail := by
  rw [loadLiveMeta, Prog.run_bind_ok _ (run_loadMeta h)]
  dsimp only
  by_cases he : m.expireMs = 0
  · simp only [he, ne_eq, not_true_eq_false, false_and, ite_false, ite_true]
    exact ⟨w, rfl, rfl⟩
  · have hnow : exec .nowMs w = (w.ms.head, { w with ms := w.ms.tail }) := rfl
    rw [if_pos he, Prog.perform_bind, Prog.run_call, hnow, if_neg he]
    dsimp only
    by_cases hn : m.expireMs ≤ w.ms.head
    · rw [if_pos hn, if_pos ⟨he, hn⟩]
      exact ⟨_, rfl, rfl⟩
    · rw [if_neg hn, if_neg fun h => hn h.2]
      exact ⟨_, rfl, rfl⟩

/-- Both stores find something or neither does, after as many looks at the clock. -/
theorem run_loadLiveMeta_both (hms : w'.ms = w.ms) (h : SameDeadline w.disk w'.disk k) :
    ∃ r r' v v', (loadLiveMeta k).run exec w = (.ok r, v) ∧ (loadLiveMeta k).run exec w' = (.ok r', v') ∧
      v'.ms = v.ms ∧ r'.map Meta.expireMs = r.map Meta.expireMs := by
  obtain ⟨hm, hm'⟩ | ⟨m, m', hm, hm', he⟩ := h
  · have hload : ∀ {u : World}, u.disk[metaKey k]? = none → (loadLiveMeta k).run exec u = (.ok none, u) := by
      intro u hu
      rw [loadLiveMeta, Prog.run_bind_ok _ (run_loadMeta_none hu)]
      rfl
    exact ⟨none, none, w, w', hload hm, hload hm', hms, rfl⟩
  · obtain ⟨v, hv, hvms⟩ := run_loadLiveMeta_ms hm
    obtain ⟨v', hv', hvms'⟩ := run_loadLiveMeta_ms hm'
    rw [he, hms] at hvms'
    refine ⟨_, _, v, v', hv, hv', hvms'.trans hvms.symm, ?_⟩
    rw [he, hms]
    split
    · rfl
    · exact congrArg some he

/-- Operations on a key with one deadline look at the clock equally often. -/
theorem KeyOp.run_ms (op : KeyOp) (key : Key) (hms : w'.ms = w.ms) (h : SameDeadline w.disk w'.disk key.1) :
    ((Op.keyed key op).run w').2.ms = ((Op.keyed key op).run w).2.ms := by
  by_cases hset : op.begins = .start
  · obtain ⟨r, r', v, v', hv, hv', hvms, hdue⟩ := run_loadLiveMeta_both hms h
    by_cases hpttl : op = .pttl
    · subst hpttl
      change ((Reply.int <$> GameStore.pttl key.1).run exec w').2.ms =
        ((Reply.int <$> GameStore.pttl key.1).run exec w).2.ms
      rw [Prog.run_map, Prog.run_map]
      rw [GameStore.pttl, Prog.run_bind_ok _ hv, Prog.run_bind_ok _ hv']
      cases r with
      | none =>
        cases r' with
        | none => exact hvms
        | some m' => cases hdue
      | some m =>
        cases r' with
        | none => cases hdue
        | some m' =>
          have he : m'.expireMs = m.expireMs := Option.some.inj hdue
          dsimp only
          rw [he]
          split
          · exact hvms
          · exact congrArg Stream'.tail hvms
    · obtain ⟨f, hf, hcalm⟩ := op.loadsCalmly (k := key.1) hset hpttl
      rw [Op.run, Op.run, Op.prog, hf, Prog.run_bind_ok _ hv, Prog.run_bind_ok _ hv', (hcalm r).run,
        (hcalm r').run]
      exact hvms
  · cases op with
    | set value expireMs => exact hms
    | _ => exact absurd rfl hset

end SameClock

/-! ## Two stores of one keyspace -/

/-- `n` more versions can be issued, whatever the clock shows from now on. -/
def World.Lasts (n : ℕ) (w : World) : Prop :=
  w.versionClock.toNat + n + 1 < 2 ^ 64 ∧ ∀ i, (w.micros.get i).toNat + n + 1 < 2 ^ 64

/-- The stores hold one keyspace, read one clock, and have room for `n` more elements
and versions. -/
structure Twins (n : ℕ) (w w' : World) : Prop where
  ms : w'.ms = w.ms
  lasts : w.Lasts n ∧ w'.Lasts n
  same : ∃ p p' c ks, Refines p w ks ∧ Refines p' w' ks ∧ p + n < 2 ^ 63 ∧ p' + n < 2 ^ 63 ∧
    c + n < 2 ^ 32 ∧ ∀ (k : Bytes) e, ks[k]? = some e → e.value.counter ≤ c

/-- How much room an operation may take. -/
def Op.cost : Op → ℕ
  | .keyed _ op => op.listed + 1
  | _ => 1

section Twins

variable {n : ℕ} {w w' : World}

theorem World.Lasts.mono {m : ℕ} (hmn : m ≤ n) (h : w.Lasts n) : w.Lasts m := by
  refine ⟨?_, fun i => ?_⟩
  · have := h.1
    omega
  · have := h.2 i
    omega

theorem Twins.mono {m : ℕ} (hmn : m ≤ n) (h : Twins n w w') : Twins m w w' := by
  obtain ⟨p, p', c, ks, hp, hp', hroom, hroom', hc, hcount⟩ := h.same
  exact ⟨h.ms, ⟨h.lasts.1.mono hmn, h.lasts.2.mono hmn⟩, p, p', c, ks, hp, hp', by omega, by omega, by omega, hcount⟩

theorem World.Lasts.nextIssue_le (h : w.Lasts n) : w.nextIssue.toNat + n < 2 ^ 64 := by
  have hclock := h.1
  have hmicros : w.micros.head.toNat + n + 1 < 2 ^ 64 := h.2 0
  have hone : (1 : UInt64).toNat = 1 := rfl
  have hnext : w.nextIssue =
      if w.versionClock + 1 ≤ w.micros.head then w.micros.head else w.versionClock + 1 := rfl
  rw [hnext]
  split
  · omega
  · rw [UInt64.toNat_add]
    omega

theorem World.Lasts.room (h : w.Lasts (n + 1)) : w.nextIssue < w.nextIssue + 1 := by
  have hle := h.nextIssue_le
  have hone : (1 : UInt64).toNat = 1 := rfl
  rw [UInt64.lt_iff_toNat_lt, UInt64.toNat_add]
  omega

theorem World.Lasts.run (h : w.Lasts (n + 1)) (op : Op) : (op.run w).2.Lasts n := by
  have hclock : (op.run w).2.versionClock = w.versionClock ∧ (op.run w).2.micros = w.micros ∨
      (op.run w).2.versionClock = w.nextIssue ∧ (op.run w).2.micros = w.micros.tail := by
    cases op with
    | keyed key op => exact op.run_clocks key w
    | _ => exact .inl ⟨rfl, rfl⟩
  obtain ⟨hv, hm⟩ | ⟨hv, hm⟩ := hclock
  · rw [World.Lasts, hv, hm]
    exact h.mono (Nat.le_succ n)
  · rw [World.Lasts, hv, hm]
    refine ⟨by have := h.nextIssue_le; omega, fun i => ?_⟩
    have := h.2 (i + 1)
    rw [Stream'.get_tail]
    omega

theorem sameDeadline_of_refines {p p' : ℕ} {ks : Keyspace} (h : Refines p w ks) (h' : Refines p' w' ks) (k : Bytes) :
    SameDeadline w.disk w'.disk k := by
  have hk := h.keys k
  have hk' := h'.keys k
  cases he : ks[k]? with
  | none =>
    rw [he] at hk hk'
    exact .inl ⟨hk, hk'⟩
  | some e =>
    rw [he] at hk hk'
    obtain ⟨-, -, m, hm, hexp, -⟩ := hk
    obtain ⟨-, -, m', hm', hexp', -⟩ := hk'
    exact .inr ⟨m, m', hm, hm', hexp'.trans hexp.symm⟩

theorem KeyOp.pushCount_le (op : KeyOp) : op.pushCount ≤ op.listed := by
  cases op with
  | push values left => exact le_rfl
  | _ => exact Nat.zero_le _

/-- One operation cannot tell the stores apart, and keeps them indistinguishable. -/
theorem Twins.step {op : Op} (h : Twins (n + op.cost) w w') (hproper : op.Proper) (hop : op ≠ .rawSubkeyCount) :
    (op.run w').1 = (op.run w).1 ∧ Twins n (op.run w).2 (op.run w').2 := by
  obtain ⟨p, p', c, ks, hp, hp', hroom, hroom', hc, hcount⟩ := h.same
  have hcost : op.pushCount ≤ op.cost ∧ op.listed ≤ op.cost ∧ 1 ≤ op.cost := by
    cases op with
    | keyed key op =>
      refine ⟨op.pushCount_le.trans (Nat.le_succ _), Nat.le_succ _, Nat.succ_pos _⟩
    | _ => exact ⟨Nat.zero_le _, Nat.zero_le _, le_rfl⟩
  have hlasts : w.Lasts (n + 1) ∧ w'.Lasts (n + 1) := by
    exact ⟨h.lasts.1.mono (by omega), h.lasts.2.mono (by omega)⟩
  have hmoment : w'.moment = w.moment := by
    rw [Clock.moment, Clock.moment, h.ms]
  have hgrow := Keyspace.counter_step hcount w.moment op
  have hfit : (ks.step w.moment op).2.Fits := by
    intro k e he
    have := hgrow k e he
    change e.value.counter < 2 ^ 32
    omega
  obtain ⟨hreply, hleft⟩ := hp.step hproper hlasts.1.room hfit (by omega)
  obtain ⟨hreply', hleft'⟩ := hp'.step hproper hlasts.2.room (hmoment ▸ hfit) (by omega)
  rw [hmoment] at hreply' hleft'
  refine ⟨?_, ?_, ⟨hlasts.1.run op, hlasts.2.run op⟩, _, _, c + op.listed, _, hleft, hleft', by omega, by omega,
    by omega, hgrow⟩
  · cases hr : (ks.step w.moment op).1 with
    | some r => rw [hreply r hr, hreply' r hr]
    | none =>
      cases op with
      | rawSubkeyCount => exact absurd rfl hop
      | _ => cases hr
  · cases op with
    | keyed key op => exact op.run_ms key h.ms (sameDeadline_of_refines hp hp' key.1)
    | flushAll =>
      have hcalm : Calm (Op.prog .flushAll) :=
        ⟨by simp, fun _ => ⟨by simp, fun _ => ⟨by simp, fun _ => ⟨by simp, fun _ => ⟨by simp, fun _ => trivial⟩⟩⟩⟩⟩
      rw [Op.run, Op.run, hcalm.run, hcalm.run]
      exact h.ms
    | _ => exact h.ms

end Twins

end GameStore
