import GameStore.Lifecycle

/-!
# Every operation keeps to the listed steps
-/

namespace GameStore

open Lib

section Conduct

variable {fresh : Prop} {al : Allowed} {k : Bytes} {α β γ : Type}

/-! ## Strings and generic keys -/

theorem obeys_set (hal : al.writes) (value : Bytes) (expireMs : UInt64) :
    Obeys fresh k (Settles al) .overwriting (set k value expireMs) :=
  fun _ _ => ⟨_, .untrack, fun _ _ => ⟨_, .issueString, fun _ _ => ⟨_, .writeString rfl, hal⟩⟩⟩

theorem obeys_get : Obeys fresh k (Settles al) .start (get k) := by
  refine obeys_live (fun m => ?_) trivial
  dsimp only
  split <;> trivial

theorem obeys_del (hal : al.writes) : Obeys fresh k (Settles al) .start (del k) :=
  obeys_live (fun _ => obeys_deleteLive hal true) trivial

theorem obeys_expireAt (hal : al.writes) (deadline : UInt64) :
    Obeys fresh k (Settles al) .start (expireAt k deadline) :=
  obeys_live (fun _ _ _ => ⟨_, Move.rewrite rfl rfl, hal⟩) trivial

theorem obeys_pttl : Obeys fresh k (Settles al) .start (pttl k) := by
  refine obeys_live (fun m => ?_) trivial
  dsimp only
  split
  · trivial
  · exact fun _ _ => ⟨_, .tick, trivial⟩

/-! ## Reads of records -/

variable {t : UInt8}

theorem obeys_read (hk : k.length < 2 ^ 32)
    (ht : t = TYPE_HASH ∨ t = TYPE_SET ∨ t = TYPE_ZSET ∨ t = TYPE_LIST) (field : Bytes)
    {f : Option Bytes → StoreM β} (hf : ∀ m a, Obeys fresh k (Settles al) (.live m) (f a)) (m : Meta)
    (hm : m.typeId = t) :
    Obeys fresh k (Settles al) (.live m) (engineGet (subkey k m.version field) >>= f) :=
  Opened.get ⟨composite_of_type (hm ▸ ht), .inl rfl⟩ (parseOwnerVersion_subkey hk _ _)
    fun a _ => hf m a

theorem obeys_scan (ht : t = TYPE_HASH ∨ t = TYPE_SET ∨ t = TYPE_ZSET ∨ t = TYPE_LIST)
    {m : Meta} (hm : m.typeId = t) {pre : Bytes}
    (hp : pre = subkeyPrefix k m.version ∨ pre = zscorePrefix k m.version)
    {f : List (Bytes × Bytes) → StoreM β} (hf : ∀ l, Obeys fresh k (Settles al) (.live m) (f l)) :
    Obeys fresh k (Settles al) (.live m) (scanPrefix pre >>= f) :=
  Prog.Follows.perform fun l _ => ⟨_, .scan (composite_of_type (hm ▸ ht)) hp, hf l⟩

theorem obeys_storedCount : Obeys fresh k (Settles al) .start (storedCount k t) :=
  obeys_typed (fun _ _ => trivial) trivial

theorem obeys_hget (hk : k.length < 2 ^ 32) (field : Bytes) :
    Obeys fresh k (Settles al) .start (hget k field) :=
  obeys_typed (obeys_read (f := Prog.ok) hk (.inl rfl) field fun _ _ => trivial) trivial

theorem obeys_hgetall : Obeys fresh k (Settles al) .start (hgetall k) :=
  obeys_typed (fun _ hm => obeys_scan (.inl rfl) hm (.inl rfl) fun _ => trivial) trivial

theorem obeys_sismember (hk : k.length < 2 ^ 32) (member : Bytes) :
    Obeys fresh k (Settles al) .start (sismember k member) :=
  obeys_typed (obeys_read hk (.inr (.inl rfl)) member fun _ _ => trivial) trivial

theorem obeys_smembers : Obeys fresh k (Settles al) .start (smembers k) :=
  obeys_typed (fun _ hm => obeys_scan (.inr (.inl rfl)) hm (.inl rfl) fun _ => trivial) trivial

/-- A program without calls, run where the operation may return. -/
theorem obeys_still {ph : Phase} (hph : ph.settled al) {p : StoreM α}
    (hp : (∃ a, p = .ok a) ∨ ∃ e, p = .err e) : Obeys fresh k (Settles al) ph p := by
  obtain ⟨a, rfl⟩ | ⟨e, rfl⟩ := hp <;> exact hph

theorem decodeStoredScore_still (raw : Bytes) :
    (∃ a, decodeStoredScore raw = .ok a) ∨ ∃ e, decodeStoredScore raw = .err e := by
  unfold decodeStoredScore
  split
  · exact .inl ⟨_, rfl⟩
  · exact .inr ⟨_, rfl⟩

theorem obeys_zscore (hk : k.length < 2 ^ 32) (member : Bytes) :
    Obeys fresh k (Settles al) .start (zscore k member) := by
  refine obeys_typed (obeys_read hk (.inr (.inr (.inl rfl))) member fun m a => ?_) trivial
  cases a with
  | none => trivial
  | some raw =>
    dsimp only
    obtain ⟨s, hs⟩ | ⟨e, hs⟩ := decodeStoredScore_still raw <;> rw [hs] <;> trivial

theorem splitSuffix_still (plen : ℕ) (key : Bytes) :
    (∃ a, splitSuffix plen key = .ok a) ∨ ∃ e, splitSuffix plen key = .err e := by
  unfold splitSuffix
  split
  · exact .inl ⟨_, rfl⟩
  · exact .inr ⟨_, rfl⟩

theorem zrangeLoop_still (plen lo hi : ℕ) (items : List (Bytes × Bytes)) (rank : ℕ) :
    (∃ a, zrangeLoop plen lo hi rank items = .ok a) ∨
      ∃ e, zrangeLoop plen lo hi rank items = .err e := by
  induction items generalizing rank with
  | nil => exact .inl ⟨_, rfl⟩
  | cons item rest ih =>
    unfold zrangeLoop
    split
    · exact ih (rank + 1)
    · split
      · exact .inl ⟨_, rfl⟩
      · obtain ⟨a, ha⟩ | ⟨e, ha⟩ := splitSuffix_still plen item.1 <;> rw [ha]
        · obtain ⟨b, hb⟩ | ⟨e, hb⟩ := ih (rank + 1) <;> simp [hb]
        · simp

theorem obeys_zrange (start stop : Int64) :
    Obeys fresh k (Settles al) .start (zrange k start stop) := by
  refine obeys_typed (fun m hm => ?_) trivial
  dsimp only
  split
  · trivial
  · refine obeys_scan (.inr (.inr (.inl rfl))) hm (.inr rfl) fun l => ?_
    apply obeys_still _ (zrangeLoop_still _ _ _ l 0)
    trivial

theorem zrangeByScoreLoop_still (plen : ℕ) (min : F64) (minExclusive : Bool) (max : F64)
    (maxExclusive : Bool) (items : List (Bytes × Bytes)) :
    (∃ a, zrangeByScoreLoop plen min minExclusive max maxExclusive items = .ok a) ∨
      ∃ e, zrangeByScoreLoop plen min minExclusive max maxExclusive items = .err e := by
  induction items with
  | nil => exact .inl ⟨_, rfl⟩
  | cons item rest ih =>
    unfold zrangeByScoreLoop
    obtain ⟨a, ha⟩ | ⟨e, ha⟩ := splitSuffix_still plen item.1 <;> rw [ha]
    · rw [Prog.ok_bind]
      split
      · exact .inl ⟨_, rfl⟩
      · split
        · exact ih
        · obtain ⟨b, hb⟩ | ⟨e, hb⟩ := ih <;> simp [hb]
    · simp

theorem obeys_zrangeByScore (min : F64) (minExclusive : Bool) (max : F64) (maxExclusive : Bool) :
    Obeys fresh k (Settles al) .start (zrangeByScore k min minExclusive max maxExclusive) := by
  refine obeys_typed (fun m hm => ?_) trivial
  refine obeys_scan (.inr (.inr (.inl rfl))) hm (.inr rfl) fun l => ?_
  apply obeys_still _ (zrangeByScoreLoop_still _ _ _ _ _ l)
  trivial

/-! ## Element loops -/

variable {ph : Phase} {m : Meta}

/-- A loop body stays in its phase and keeps `I`, or fails where it may. -/
abbrev Body (al : Allowed) (ph : Phase) (I : α → Prop) (r : Except EngineError α) (ph' : Phase) : Prop :=
  match r with
  | .ok a => ph' = ph ∧ I a
  | .error _ => ph'.settled al

theorem Body.loop (I : List β → α → Prop) {f : α → β → StoreM α} {bs : List β} {a : α} (ha : I bs a)
    (hf : ∀ b bs a, I (b :: bs) a → Obeys fresh k (Body al ph (I bs)) ph (f a b))
    {g : α → StoreM γ} (hg : ∀ a, I [] a → Obeys fresh k (Settles al) ph (g a)) :
    Obeys fresh k (Settles al) ph (bs.foldlM f a >>= g) := by
  apply Prog.Follows.bind
  refine Prog.Follows.foldlM hg (fun b bs a ha => ?_) bs ha
  exact (hf b bs a ha).mono fun r ph' hr => by cases r <;> exact hr

theorem obeys_hset (hk : k.length < 2 ^ 32) (hal : al.writes) (pairs : List (Bytes × Bytes)) :
    Obeys fresh k (Settles al) .start (hset k pairs) := by
  refine obeys_loadOrCreate (fun m => m.setFieldCount 0) (.inl rfl) (fun _ => ⟨rfl, rfl, rfl⟩)
    fun m ph hm _ _ => ?_
  refine Body.loop (fun _ (t : Tally) => Records k m.version t.batch) Records.nil
    (fun pair _ t ht => ?_) fun t ht => hm.write ht (m.setFieldCount t.count) rfl rfl rfl hal _
  have hr := parseOwnerVersion_subkey hk m.version pair.1
  refine hm.get hr fun a _ => ?_
  cases a <;> exact ⟨rfl, ht.append (Records.single hr)⟩

theorem obeys_hdel (hk : k.length < 2 ^ 32) (hw : al.writes) (he : al.empties) (fields : List Bytes) :
    Obeys fresh k (Settles al) .start (hdel k fields) := by
  refine obeys_typed (fun m hty => ?_) trivial
  have hc : m.composite := composite_of_type (.inl hty)
  refine Body.loop (fun _ (t : Tally) => Records k m.version t.batch) Records.nil
    (fun field _ t ht => ?_) fun t ht => obeys_finishRemoval hc ht hw he
  have hr := parseOwnerVersion_subkey hk m.version field
  refine Opened.get ⟨hc, .inl rfl⟩ hr fun a _ => ?_
  cases a with
  | none => exact ⟨rfl, ht⟩
  | some _ => exact ⟨rfl, ht.append (Records.single hr)⟩

theorem obeys_srem (hk : k.length < 2 ^ 32) (hw : al.writes) (he : al.empties) (members : List Bytes) :
    Obeys fresh k (Settles al) .start (srem k members) := by
  refine obeys_typed (fun m hty => ?_) trivial
  have hc : m.composite := composite_of_type (.inr (.inl hty))
  refine Body.loop (fun _ (st : List Bytes × Tally) => Records k m.version st.2.batch) Records.nil
    (fun member _ st hst => ?_) fun st hst => obeys_finishRemoval hc hst hw he
  unfold sremStep
  split
  · exact ⟨rfl, hst⟩
  · have hr := parseOwnerVersion_subkey hk m.version member
    refine Opened.get ⟨hc, .inl rfl⟩ hr fun a _ => ?_
    cases a with
    | none => exact ⟨rfl, hst⟩
    | some _ => exact ⟨rfl, hst.append (Records.single hr)⟩

theorem obeys_zrem (hk : k.length < 2 ^ 32) (hw : al.writes) (he : al.empties) (members : List Bytes) :
    Obeys fresh k (Settles al) .start (zrem k members) := by
  refine obeys_typed (fun m hty => ?_) trivial
  have hc : m.composite := composite_of_type (.inr (.inr (.inl hty)))
  refine Body.loop (fun _ (st : List Bytes × Tally) => Records k m.version st.2.batch) Records.nil
    (fun member _ st hst => ?_) fun st hst => obeys_finishRemoval hc hst hw he
  unfold zremStep
  split
  · exact ⟨rfl, hst⟩
  · have hr := parseOwnerVersion_subkey hk m.version member
    refine Opened.get ⟨hc, .inl rfl⟩ hr fun a _ => ?_
    cases a with
    | none => exact ⟨rfl, hst⟩
    | some raw =>
      dsimp only
      obtain ⟨s, hs⟩ | ⟨e, hs⟩ := decodeStoredScore_still raw <;> rw [hs]
      · exact ⟨rfl, hst.append (Records.cons hr
          (Records.single (parseOwnerVersion_zscoreKey hk m.version s member)))⟩
      · trivial

/-- In a fresh incarnation the first listed member is new, so something is added. -/
theorem obeys_sadd (hk : k.length < 2 ^ 32) (members : List Bytes) (hal : al.writes)
    (hle : ¬ (fresh ∧ members ≠ []) → al.leaves) :
    Obeys fresh k (Settles al) .start (sadd k members) := by
  refine obeys_loadOrCreate (fun m => m.setFieldCount 0) (.inr (.inl rfl)) (fun _ => ⟨rfl, rfl, rfl⟩)
    fun m ph hm _ _ => ?_
  refine Body.loop (fun left (st : List Bytes × Tally) => Records k m.version st.2.batch ∧
    0 ≤ st.2.changed ∧ (fresh → ph = .created m.version →
      (left.length = members.length ∧ st.1 = []) ∨ 0 < st.2.changed))
    ⟨Records.nil, le_rfl, fun _ _ => .inl ⟨rfl, rfl⟩⟩ ?_ ?_
  · rintro member left ⟨seen, t⟩ ⟨hr, h0, hw⟩
    have hrec := parseOwnerVersion_subkey hk m.version member
    unfold saddStep
    split
    · rename_i hseen
      refine ⟨rfl, hr, h0, fun hf hph => .inr ((hw hf hph).resolve_left ?_)⟩
      rintro ⟨-, rfl⟩
      cases hseen
    · refine hm.get hrec fun a ha => ?_
      cases a with
      | none =>
        have hpos : 0 < t.changed + 1 := Int.lt_add_one_iff.mpr h0
        exact ⟨rfl, hr.append (Records.single hrec), hpos.le, fun _ _ => .inr hpos⟩
      | some _ => exact ⟨rfl, hr, h0, fun hf hph => nomatch ha hf hph⟩
  · rintro ⟨seen, t⟩ ⟨hr, h0, hw⟩
    dsimp only
    split
    · exact hm.write hr (m.setFieldCount t.count) rfl rfl rfl hal _
    · rename_i hn
      obtain ⟨-, rfl | ⟨rfl, -⟩⟩ := hm
      · trivial
      · refine hle ?_
        rintro ⟨hf, hne⟩
        refine hn ((hw hf rfl).resolve_left ?_)
        rintro ⟨hlen, -⟩
        exact hne (List.length_eq_zero_iff.mp hlen.symm)

theorem upsertScore_ne_nil (eff : List (Bytes × F64)) (member : Bytes) (score : F64) :
    upsertScore eff member score ≠ [] := by
  cases eff with
  | nil => simp [upsertScore]
  | cons p rest =>
    rw [upsertScore]
    split <;> simp

theorem effectivePairs_ne_nil {pairs : List (F64 × Bytes)} (h : pairs ≠ []) :
    effectivePairs pairs ≠ [] := by
  induction pairs using List.reverseRecOn with
  | nil => exact absurd rfl h
  | append_singleton pairs p =>
    rw [effectivePairs, List.foldl_append]
    exact upsertScore_ne_nil _ _ _

theorem obeys_zadd (hk : k.length < 2 ^ 32) (pairs : List (F64 × Bytes)) (hal : al.writes)
    (hle : ¬ (fresh ∧ pairs ≠ []) → al.leaves) :
    Obeys fresh k (Settles al) .start (zadd k pairs) := by
  refine obeys_loadOrCreate (fun m => m.setFieldCount 0) (.inr (.inr (.inl rfl)))
    (fun _ => ⟨rfl, rfl, rfl⟩) fun m ph hm _ _ => ?_
  refine Body.loop (fun left (t : Tally) => Records k m.version t.batch ∧
    (fresh → ph = .created m.version →
      left.length = (effectivePairs pairs).length ∨ t.batch ≠ []))
    ⟨Records.nil, fun _ _ => .inl rfl⟩ ?_ ?_
  · rintro ⟨member, score⟩ left t ⟨hr, hw⟩
    have hrec := parseOwnerVersion_subkey hk m.version member
    have hputs : Records k m.version [.put (subkey k m.version member) (encodeScore score),
        .put (zscoreKey k m.version score member) []] :=
      Records.cons hrec (Records.single (parseOwnerVersion_zscoreKey hk m.version score member))
    refine hm.get hrec fun a ha => ?_
    cases a with
    | none => exact ⟨rfl, hr.append hputs, fun _ _ => .inr (by simp [Tally.add])⟩
    | some raw =>
      dsimp only
      obtain ⟨s, hs⟩ | ⟨e, hs⟩ := decodeStoredScore_still raw <;> rw [hs]
      · rw [Prog.ok_bind]
        split
        · exact ⟨rfl, hr, fun hf hph => nomatch ha hf hph⟩
        · exact ⟨rfl, hr.append (Records.cons (parseOwnerVersion_zscoreKey hk m.version s member) hputs),
            fun hf hph => nomatch ha hf hph⟩
      · -- An undecodable score in a fresh incarnation cannot be: nothing is there.
        obtain ⟨-, rfl | ⟨rfl, -⟩⟩ := hm
        · trivial
        · exact hle fun hs => nomatch ha hs.1 rfl
  · rintro t ⟨hr, hw⟩
    split
    · rename_i hn
      obtain ⟨-, rfl | ⟨rfl, -⟩⟩ := hm
      · trivial
      · refine hle ?_
        rintro ⟨hf, hne⟩
        obtain hlen | hb := hw hf rfl
        · exact effectivePairs_ne_nil hne (List.length_eq_zero_iff.mp hlen.symm)
        · exact hb (List.isEmpty_iff.mp hn)
    · exact hm.write hr (m.setFieldCount t.count) rfl rfl rfl hal _

/-! ## Lists -/

theorem pushStep_records (hk : k.length < 2 ^ 32) (v : UInt64) (left : Bool) (values : List Bytes) :
    ∀ e : Ends, Records k v e.batch →
      Records k v (values.foldl (pushStep k v left) e).batch := by
  induction values with
  | nil => exact fun _ he => he
  | cons value values ih =>
    intro e he
    refine ih _ ?_
    unfold pushStep
    split <;> exact he.append (Records.single (parseOwnerVersion_subkey hk v _))

/-- Fresh bounds decode, so `push` always gets to its write. -/
theorem obeys_push (hk : k.length < 2 ^ 32) (hal : al.writes) (values : List Bytes) (left : Bool) :
    Obeys fresh k (Settles al) .start (push k values left) := by
  refine obeys_loadOrCreate (fun m => m.setListBounds LIST_INITIAL_INDEX LIST_INITIAL_INDEX)
    (.inr (.inr (.inr rfl))) (fun _ => ⟨rfl, rfl, rfl⟩) fun m ph hm hty hnew => ?_
  dsimp only
  split
  · rename_i hb
    obtain rfl | hnew := hnew
    · trivial
    · rw [hnew, Meta.listBounds_setListBounds rfl] at hb
      cases hb
  · rename_i head tail _
    have he := pushStep_records hk m.version left values ⟨head, tail, []⟩ Records.nil
    exact hm.write he (m.setListBounds _ _) rfl rfl rfl hal _

theorem obeys_readElement (hk : k.length < 2 ^ 32) (hm : m.composite) (index : UInt64)
    {f : Bytes → StoreM β} {Q : Except EngineError β → Phase → Prop}
    (herr : ∀ e, Q (.error e) (.live m)) (hf : ∀ value, Obeys fresh k Q (.live m) (f value)) :
    Obeys fresh k Q (.live m) (readElement k m.version index >>= f) := by
  refine Opened.get ⟨hm, .inl rfl⟩ (parseOwnerVersion_subkey hk m.version _) fun a _ => ?_
  cases a with
  | none => exact herr _
  | some value => exact hf value

theorem obeys_popLoop (hk : k.length < 2 ^ 32) (hm : m.composite) (left : Bool) (n : ℕ) :
    ∀ (e : Ends) (out : List Bytes), Records k m.version e.batch →
      Obeys fresh k (Body al (.live m) fun r => Records k m.version r.1.batch) (.live m)
        (popLoop k m.version left n e out) := by
  induction n with
  | zero => exact fun _ _ he => ⟨rfl, he⟩
  | succ n ih =>
    intro e out he
    unfold popLoop
    split
    · refine obeys_readElement hk hm _ (fun _ => trivial) fun value => ih _ _ ?_
      split <;> exact he.append (Records.single (parseOwnerVersion_subkey hk m.version _))
    · exact ⟨rfl, he⟩

theorem obeys_pop (hk : k.length < 2 ^ 32) (hw : al.writes) (hal : al.empties) (count : ℕ) (left : Bool) :
    Obeys fresh k (Settles al) .start (pop k count left) := by
  refine obeys_typed (fun m hty => ?_) trivial
  have hc : m.composite := composite_of_type (.inr (.inr (.inr hty)))
  dsimp only
  split
  · trivial
  · apply Prog.Follows.bind
    apply (obeys_popLoop hk hc left count _ _ Records.nil).mono
    rintro (err | ⟨e, out⟩) ph hph
    · exact hph
    · obtain ⟨rfl, he⟩ := hph
      dsimp only
      split
      · trivial
      · split
        · exact obeys_strip hc he hal _
        · exact Opened.write ⟨hc, .inl rfl⟩ he (m.setListBounds e.head e.tail) rfl rfl rfl hw _

theorem obeys_lrange (hk : k.length < 2 ^ 32) (start stop : Int64) :
    Obeys fresh k (Settles al) .start (lrange k start stop) := by
  refine obeys_typed (fun m hty => ?_) trivial
  have hc : m.composite := composite_of_type (.inr (.inr (.inr hty)))
  dsimp only
  split
  · trivial
  · split
    · trivial
    · refine Prog.Follows.foldlM (I := fun _ _ => True) (fun _ _ => trivial) (fun offset _ out _ => ?_)
        _ trivial
      exact obeys_readElement hk hc _ (fun _ => trivial) fun value => ⟨rfl, trivial⟩

theorem obeys_llen : Obeys fresh k (Settles al) .start (llen k) := by
  refine obeys_typed (fun m _ => ?_) trivial
  dsimp only
  split <;> trivial

theorem obeys_typeOf : Obeys fresh k (Settles al) .start (typeOf k) :=
  obeys_live (fun _ => trivial) trivial

theorem obeys_exists : Obeys fresh k (Settles al) .start (GameStore.exists k) :=
  obeys_live (fun _ => trivial) trivial

theorem obeys_hexists (hk : k.length < 2 ^ 32) (field : Bytes) :
    Obeys fresh k (Settles al) .start (hexists k field) := by
  apply Prog.Follows.bind
  exact (obeys_hget hk field).mono fun r ph hr => by cases r <;> exact hr

/-- Every operation on a key keeps to the listed steps. -/
theorem KeyOp.obeys (hk : k.length < 2 ^ 32) (op : KeyOp) :
    Obeys fresh k (Settles (op.allowed fresh)) op.begins (op.prog k) := by
  cases op <;> apply Prog.Follows.map
  case set value expireMs => exact obeys_set rfl value expireMs
  case get => exact obeys_get
  case «exists» => exact obeys_exists
  case typeOf => exact obeys_typeOf
  case del => exact obeys_del rfl
  case expireAt expireAtMs => exact obeys_expireAt rfl expireAtMs
  case pttl => exact obeys_pttl
  case hset pairs => exact obeys_hset hk rfl pairs
  case hget field => exact obeys_hget hk field
  case hgetall => exact obeys_hgetall
  case hdel fields => exact obeys_hdel hk rfl trivial fields
  case hlen => exact obeys_storedCount
  case hexists field => exact obeys_hexists hk field
  case sadd members => exact obeys_sadd hk members rfl id
  case srem members => exact obeys_srem hk rfl trivial members
  case sismember member => exact obeys_sismember hk member
  case smembers => exact obeys_smembers
  case scard => exact obeys_storedCount
  case zadd pairs => exact obeys_zadd hk pairs rfl id
  case zscore member => exact obeys_zscore hk member
  case zrem members => exact obeys_zrem hk rfl trivial members
  case zcard => exact obeys_storedCount
  case zrange start stop => exact obeys_zrange start stop
  case zrangeByScore min minExclusive max maxExclusive =>
    exact obeys_zrangeByScore min minExclusive max maxExclusive
  case push values left => exact obeys_push hk rfl values left
  case pop count left => exact obeys_pop hk rfl trivial count left
  case lrange start stop => exact obeys_lrange hk start stop
  case llen => exact obeys_llen

end Conduct

/-- An operation on another key leaves this one's metadata and records alone. -/
theorem KeyOp.run_getElem?_foreign (key : Key) (op : KeyOp) {raw : Bytes} (hmeta : raw ≠ metaKey key.1)
    (hrec : ∀ v, ¬ RecordOf key.1 v raw) (w : World) :
    ((op.prog key.1).run exec w).2.disk[raw]? = w.disk[raw]? := by
  have hs : Prog.Sound exec (Possible False key.1) (Move key.1)
      fun _ s => s.disk[raw]? = w.disk[raw]? := by
    refine ⟨fun ph s o _ => possible_of_not_fresh _ _ o _, fun ph s o ph' hs hmove => ?_⟩
    rw [hmove.getElem?_foreign hmeta hrec s, hs]
  obtain ⟨-, -, h⟩ := (KeyOp.obeys key.2 op).run hs rfl
  exact h

end GameStore
