import GameStore.Commands

/-!
# The texts of errors

Every error an operation of the store ends with has a text of one line, whatever is on
disk.
-/

namespace GameStore

open Lib

/-- A result whose error, if it is one, has a text of one line. -/
def Plain {α : Type} : Except EngineError α → Prop
  | .ok _ => True
  | .error e => OneLine e.toText

/-- A program that fails with texts of one line only. -/
abbrev Speaks {α : Type} (p : StoreM α) : Prop := Prog.Ends Plain p

section Speaks

variable {α β : Type}

theorem Speaks.bind {p : StoreM α} {f : α → StoreM β} (hp : Speaks p) (hf : ∀ a, Speaks (f a)) :
    Speaks (p >>= f) :=
  Prog.Ends.bind hp (fun a _ => hf a) fun _ he => he

theorem Speaks.ok (a : α) : Speaks (.ok a : StoreM α) := trivial

theorem Speaks.foldlM {γ : Type} {f : β → γ → StoreM β} (hf : ∀ b c, Speaks (f b c)) (cs : List γ)
    (b : β) : Speaks (cs.foldlM f b) :=
  Prog.Ends.foldlM (fun _ => trivial) hf cs b

theorem Speaks.call {o : Call} {f : o.Ans → StoreM β} (hf : ∀ a, Speaks (f a)) :
    Speaks (Prog.perform o >>= f) := hf

/-- The texts are fixed. -/
theorem speaks_err {e : EngineError} (h : '\n' ∉ e.toText.toList) : Speaks (.err e : StoreM α) :=
  oneLine_of_not_mem h

/-! ## Metadata -/

theorem speaks_loadMeta (k : Bytes) : Speaks (loadMeta k) := by
  refine Speaks.call fun raw => ?_
  split
  · split
    · trivial
    · exact speaks_err (by decide)
  · trivial

theorem speaks_logicalDelete (k : Bytes) : Speaks (logicalDelete k) := fun _ _ => trivial

theorem speaks_loadLiveMeta (k : Bytes) : Speaks (loadLiveMeta k) := by
  refine (speaks_loadMeta k).bind fun m => ?_
  split
  · trivial
  · split
    · refine Speaks.call fun now => ?_
      split
      · exact (speaks_logicalDelete k).bind fun _ => trivial
      · trivial
    · trivial

theorem speaks_loadTyped (k : Bytes) (t : UInt8) : Speaks (loadTyped k t) := by
  refine (speaks_loadLiveMeta k).bind fun m => ?_
  split
  · split
    · trivial
    · exact speaks_err (by decide)
  · trivial

theorem speaks_loadOrCreate (k : Bytes) (t : UInt8) (init : Meta → Meta) : Speaks (loadOrCreate k t init) := by
  refine (speaks_loadTyped k t).bind fun m => ?_
  split
  · trivial
  · exact fun _ _ => trivial

theorem speaks_finishRemoval (k : Bytes) (m : Meta) (t : Tally) : Speaks (finishRemoval k m t) := by
  unfold finishRemoval
  split
  · split
    · exact fun _ _ _ => trivial
    · exact fun _ => trivial
  · trivial

/-! ## Strings and generic keys -/

theorem speaks_live {f : Option Meta → StoreM β} (k : Bytes) (hf : ∀ m, Speaks (f m)) :
    Speaks (loadLiveMeta k >>= f) := (speaks_loadLiveMeta k).bind hf

theorem speaks_typed {f : Option Meta → StoreM β} (k : Bytes) (t : UInt8) (hsome : ∀ m, Speaks (f (some m)))
    (hnone : Speaks (f none)) : Speaks (loadTyped k t >>= f) := by
  refine (speaks_loadTyped k t).bind fun m => ?_
  cases m with
  | none => exact hnone
  | some m => exact hsome m

theorem speaks_set (k value : Bytes) (expireMs : UInt64) : Speaks (set k value expireMs) :=
  fun _ _ _ => trivial

theorem speaks_get (k : Bytes) : Speaks (get k) := by
  refine speaks_live k fun m => ?_
  split
  · trivial
  · split
    · exact speaks_err (by decide)
    · trivial

theorem speaks_exists (k : Bytes) : Speaks («exists» k) := speaks_live k fun _ => trivial

theorem speaks_del (k : Bytes) : Speaks (del k) := by
  refine speaks_live k fun m => ?_
  cases m with
  | none => trivial
  | some m => exact fun _ _ => trivial

theorem speaks_expireAt (k : Bytes) (deadline : UInt64) : Speaks (expireAt k deadline) := by
  refine speaks_live k fun m => ?_
  cases m with
  | none => trivial
  | some m => exact fun _ => trivial

theorem speaks_pttl (k : Bytes) : Speaks (pttl k) := by
  refine speaks_live k fun m => ?_
  split
  · trivial
  · split
    · trivial
    · exact fun _ => trivial

/-- The name of a type is a word. -/
def Worded : Except EngineError String → Prop
  | .ok s => OneLine s
  | .error e => OneLine e.toText

theorem ends_typeOf (k : Bytes) : Prog.Ends Worded (typeOf k) := by
  refine Prog.Ends.bind (speaks_loadLiveMeta k) (fun m _ => ?_) fun _ he => he
  cases m with
  | none => exact oneLine_of_not_mem (by decide)
  | some m =>
    change OneLine (if m.typeId = TYPE_STRING then "string" else _)
    split_ifs <;> exact oneLine_of_not_mem (by decide)

/-! ## Hashes and sets -/

theorem speaks_storedCount (k : Bytes) (t : UInt8) : Speaks (storedCount k t) :=
  speaks_typed k t (fun _ => trivial) trivial

theorem speaks_hset (k : Bytes) (pairs : List (Bytes × Bytes)) : Speaks (hset k pairs) := by
  refine (speaks_loadOrCreate k _ _).bind fun m => ?_
  refine (Speaks.foldlM (fun t pair => ?_) pairs _).bind fun t _ => trivial
  refine Speaks.call fun v => ?_
  split <;> trivial

theorem speaks_hget (k field : Bytes) : Speaks (hget k field) :=
  speaks_typed k _ (fun _ _ => trivial) trivial

theorem speaks_hgetall (k : Bytes) : Speaks (hgetall k) :=
  speaks_typed k _ (fun _ _ => trivial) trivial

theorem speaks_hdel (k : Bytes) (fields : List Bytes) : Speaks (hdel k fields) := by
  refine speaks_typed k _ (fun m => ?_) trivial
  refine (Speaks.foldlM (fun t field => ?_) fields _).bind fun t => speaks_finishRemoval k m t
  refine Speaks.call fun v => ?_
  split <;> trivial

theorem speaks_hexists (k field : Bytes) : Speaks (hexists k field) :=
  (speaks_hget k field).bind fun _ => trivial

theorem speaks_sadd (k : Bytes) (members : List Bytes) : Speaks (sadd k members) := by
  refine (speaks_loadOrCreate k _ _).bind fun m => ?_
  refine (Speaks.foldlM (fun st member => ?_) members _).bind fun st => ?_
  · unfold saddStep
    split
    · trivial
    · refine Speaks.call fun v => ?_
      split <;> trivial
  · split
    · exact fun _ => trivial
    · trivial

theorem speaks_srem (k : Bytes) (members : List Bytes) : Speaks (srem k members) := by
  refine speaks_typed k _ (fun m => ?_) trivial
  refine (Speaks.foldlM (fun st member => ?_) members _).bind fun st => speaks_finishRemoval k m st.2
  unfold sremStep
  split
  · trivial
  · refine Speaks.call fun v => ?_
    split <;> trivial

theorem speaks_sismember (k member : Bytes) : Speaks (sismember k member) :=
  speaks_typed k _ (fun _ _ => trivial) trivial

theorem speaks_smembers (k : Bytes) : Speaks (smembers k) :=
  speaks_typed k _ (fun _ _ => trivial) trivial

/-! ## Sorted sets -/

theorem speaks_decodeStoredScore (raw : Bytes) : Speaks (decodeStoredScore raw) := by
  unfold decodeStoredScore
  split
  · trivial
  · exact speaks_err (by decide)

theorem speaks_zadd (k : Bytes) (pairs : List (F64 × Bytes)) : Speaks (zadd k pairs) := by
  refine (speaks_loadOrCreate k _ _).bind fun m => ?_
  refine (Speaks.foldlM (fun t p => ?_) (effectivePairs pairs) _).bind fun t => ?_
  · refine Speaks.call fun v => ?_
    split
    · refine (speaks_decodeStoredScore _).bind fun s => ?_
      split <;> trivial
    · trivial
  · split
    · trivial
    · exact fun _ => trivial

theorem speaks_zscore (k member : Bytes) : Speaks (zscore k member) := by
  refine speaks_typed k _ (fun m => ?_) trivial
  refine Speaks.call fun v => ?_
  split
  · exact (speaks_decodeStoredScore _).bind fun _ => trivial
  · trivial

theorem speaks_zrem (k : Bytes) (members : List Bytes) : Speaks (zrem k members) := by
  refine speaks_typed k _ (fun m => ?_) trivial
  refine (Speaks.foldlM (fun st member => ?_) members _).bind fun st => speaks_finishRemoval k m st.2
  unfold zremStep
  split
  · trivial
  · refine Speaks.call fun v => ?_
    split
    · exact (speaks_decodeStoredScore _).bind fun _ => trivial
    · trivial

theorem speaks_splitSuffix (plen : ℕ) (key : Bytes) : Speaks (splitSuffix plen key) := by
  unfold splitSuffix
  split
  · trivial
  · exact speaks_err (by decide)

theorem speaks_zrangeLoop (plen lo hi : ℕ) (items : List (Bytes × Bytes)) (rank : ℕ) :
    Speaks (zrangeLoop plen lo hi rank items) := by
  induction items generalizing rank with
  | nil => trivial
  | cons item rest ih =>
    unfold zrangeLoop
    split
    · exact ih _
    · split
      · trivial
      · exact (speaks_splitSuffix plen item.1).bind fun _ => (ih _).bind fun _ => trivial

theorem speaks_zrange (k : Bytes) (start stop : Int64) : Speaks (zrange k start stop) := by
  refine speaks_typed k _ (fun m => ?_) trivial
  dsimp only
  split
  · trivial
  · exact fun items => speaks_zrangeLoop _ _ _ items 0

theorem speaks_zrangeByScore (k : Bytes) (min : F64) (minExclusive : Bool) (max : F64)
    (maxExclusive : Bool) : Speaks (zrangeByScore k min minExclusive max maxExclusive) := by
  refine speaks_typed k _ (fun m => Speaks.call fun items => ?_) trivial
  induction items with
  | nil => trivial
  | cons item rest ih =>
    unfold zrangeByScoreLoop
    refine (speaks_splitSuffix _ item.1).bind fun entry => ?_
    split
    · trivial
    · split
      · exact ih
      · exact ih.bind fun _ => trivial

/-! ## Lists -/

theorem speaks_readElement (k : Bytes) (version index : UInt64) : Speaks (readElement k version index) := by
  refine Speaks.call fun v => ?_
  split
  · trivial
  · exact speaks_err (by decide)

theorem speaks_push (k : Bytes) (values : List Bytes) (left : Bool) : Speaks (push k values left) := by
  refine (speaks_loadOrCreate k _ _).bind fun m => ?_
  split
  · exact speaks_err (by decide)
  · exact fun _ => trivial

theorem speaks_popLoop (k : Bytes) (version : UInt64) (left : Bool) (n : ℕ) (e : Ends) (out : List Bytes) :
    Speaks (popLoop k version left n e out) := by
  induction n generalizing e out with
  | zero => trivial
  | succ n ih =>
    unfold popLoop
    split
    · exact (speaks_readElement k version _).bind fun _ => ih _ _
    · trivial

theorem speaks_pop (k : Bytes) (count : ℕ) (left : Bool) : Speaks (pop k count left) := by
  refine speaks_typed k _ (fun m => ?_) trivial
  dsimp only
  split
  · exact speaks_err (by decide)
  · refine (speaks_popLoop k m.version left count _ []).bind fun r => ?_
    split
    · trivial
    · split
      · exact fun _ _ _ => trivial
      · exact fun _ => trivial

theorem speaks_lrange (k : Bytes) (start stop : Int64) : Speaks (lrange k start stop) := by
  refine speaks_typed k _ (fun m => ?_) trivial
  dsimp only
  split
  · exact speaks_err (by decide)
  · split
    · trivial
    · exact Speaks.foldlM (fun out offset => (speaks_readElement k _ _).bind fun _ => Speaks.ok _) _ _

theorem speaks_llen (k : Bytes) : Speaks (llen k) := by
  refine speaks_typed k _ (fun m => ?_) trivial
  dsimp only
  split <;> trivial

end Speaks

end GameStore
