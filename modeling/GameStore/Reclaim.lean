import GameStore.Refinement
import GameStore.Sweeping

/-!
# What a compaction reclaims

A full compaction leaves exactly the records that the keyspace needs: one for a field, a
member or an element, and a second one for a member of a sorted set. For this the score
index must hold nothing but what belongs to sorted sets.
-/

namespace GameStore

open Lib Std

/-! ## Operations that put nothing into the score index -/

/-- The record is one of the score index. -/
def Indexed (raw : Bytes) : Prop := [ZSCORE_PREFIX] <+: raw

/-- The batch puts no record of the score index. -/
def PlainBatch (b : WriteBatch) : Prop := ∀ op ∈ b, Indexed op.key → op.value = none

def Call.plain : Call → Prop
  | .write batch => PlainBatch batch
  | _ => True

abbrev Plainly {α : Type} (p : StoreM α) : Prop := p.Only Call.plain

/-- Besides, what it returns has put nothing there yet. -/
abbrev PlainWith {α : Type} (batch : α → WriteBatch) (p : StoreM α) : Prop :=
  p.Yields Call.plain fun a => PlainBatch (batch a)

section Batches

variable {b b' : WriteBatch}

theorem not_indexed_metaKey (k : Bytes) : ¬ Indexed (metaKey k) := by
  simp [Indexed, metaKey, META_PREFIX, ZSCORE_PREFIX]

theorem not_indexed_subkey (k : Bytes) (v : UInt64) (field : Bytes) : ¬ Indexed (subkey k v field) := by
  simp [Indexed, subkey, subkeyPrefix, versionedPrefix, SUBKEY_PREFIX, ZSCORE_PREFIX]

theorem PlainBatch.nil : PlainBatch [] := fun _ hop => absurd hop List.not_mem_nil

theorem PlainBatch.append (h : PlainBatch b) (h' : PlainBatch b') : PlainBatch (b ++ b') := by
  intro op hop
  exact (List.mem_append.mp hop).elim (h op) (h' op)

theorem plainBatch_delete (raw : Bytes) : PlainBatch [.delete raw] := by
  intro op hop _
  rw [List.mem_singleton.mp hop]
  rfl

theorem plainBatch_put {raw : Bytes} (hraw : ¬ Indexed raw) (value : Bytes) : PlainBatch [.put raw value] := by
  intro op hop hindexed
  rw [List.mem_singleton.mp hop] at hindexed
  exact absurd hindexed hraw

theorem PlainBatch.putMeta (h : PlainBatch b) (k raw : Bytes) : PlainBatch (b ++ [.put (metaKey k) raw]) :=
  h.append (plainBatch_put (not_indexed_metaKey k) raw)

/-- Nothing comes into the score index. -/
theorem PlainBatch.mem (h : PlainBatch b) {d : Disk} {raw : Bytes} (hraw : Indexed raw) (hmem : raw ∈ applyBatch d b) :
    raw ∈ d := by
  induction b using List.reverseRecOn with
  | nil => exact hmem
  | append_singleton b op ih =>
    rw [ExtTreeMap.mem_iff_isSome_getElem?, getElem?_applyBatch_concat] at hmem
    split at hmem
    · rename_i hkey
      rw [h op (List.mem_append_right b (List.mem_singleton_self op)) (hkey ▸ hraw)] at hmem
      cases hmem
    · apply ih fun o ho => h o (List.mem_append_left _ ho)
      rwa [ExtTreeMap.mem_iff_isSome_getElem?]

end Batches

section Plain

variable {k : Bytes} {α β γ : Type}

theorem plain_perform {o : Call} (ho : o.plain) : Plainly (Prog.perform o) := ⟨ho, fun _ => trivial⟩

theorem plain_read {o : Call} (ho : o.plain) {f : o.Ans → StoreM α} (hf : ∀ a, Plainly (f a)) :
    Plainly (Prog.perform o >>= f) := (plain_perform ho).bind hf

theorem plain_write {b : WriteBatch} (hb : PlainBatch b) (a : α) : Plainly (do engineWrite b; pure a) :=
  ⟨hb, fun _ => trivial⟩

theorem Plainly.map {p : StoreM α} (h : Plainly p) {g : α → β} : Plainly (g <$> p) := by
  rw [Prog.map_eq]
  exact h.bind fun _ => trivial

theorem plain_logicalDelete : Plainly (logicalDelete k) :=
  ⟨plainBatch_delete (metaKey k), fun _ => ⟨trivial, fun _ => trivial⟩⟩

theorem plain_loadMeta : Plainly (loadMeta k) := by
  refine plain_read (o := .get (metaKey k)) trivial fun raw => ?_
  cases raw with
  | none => trivial
  | some raw =>
    dsimp only
    cases Meta.decode raw <;> trivial

theorem plain_loadLiveMeta : Plainly (loadLiveMeta k) := by
  refine plain_loadMeta.bind fun m => ?_
  cases m with
  | none => trivial
  | some m =>
    dsimp only
    split
    · refine plain_read (o := .nowMs) trivial fun now => ?_
      split
      · exact plain_logicalDelete.bind fun _ => trivial
      · trivial
    · trivial

theorem plain_live {f : Option Meta → StoreM α} (hnone : Plainly (f none)) (hsome : ∀ m, Plainly (f (some m))) :
    Plainly (loadLiveMeta k >>= f) := by
  refine plain_loadLiveMeta.bind fun m => ?_
  cases m with
  | none => exact hnone
  | some m => exact hsome m

theorem plain_loadTyped (t : UInt8) : Plainly (loadTyped k t) := by
  refine plain_live trivial fun m => ?_
  dsimp only
  split <;> trivial

theorem plain_typed {t : UInt8} {f : Option Meta → StoreM α} (hnone : Plainly (f none))
    (hsome : ∀ m, Plainly (f (some m))) : Plainly (loadTyped k t >>= f) := by
  refine (plain_loadTyped t).bind fun m => ?_
  cases m with
  | none => exact hnone
  | some m => exact hsome m

theorem plain_new {t : UInt8} {init : Meta → Meta} {f : Meta → StoreM α} (hf : ∀ m, Plainly (f m)) :
    Plainly (loadOrCreate k t init >>= f) := by
  refine Prog.Only.bind (plain_typed ?_ fun m => trivial) hf
  exact ⟨trivial, fun v => ⟨trivial, fun _ => trivial⟩⟩

theorem plain_finishRemoval (m : Meta) {t : Tally} (ht : PlainBatch t.batch) : Plainly (finishRemoval k m t) := by
  unfold finishRemoval
  split
  · split
    · exact ⟨ht, fun _ => plain_logicalDelete.bind fun _ => trivial⟩
    · exact plain_write (ht.putMeta k _) _
  · trivial

/-! ### The bodies of the loops -/

theorem plain_lookup {raw : Bytes} {batch : α → WriteBatch} {f : Option Bytes → StoreM α}
    (hnone : PlainWith batch (f none)) (hsome : ∀ value, PlainWith batch (f (some value))) :
    PlainWith batch (engineGet raw >>= f) := by
  refine ⟨trivial, fun a => ?_⟩
  cases a with
  | none => exact hnone
  | some value => exact hsome value

variable {v : UInt64}

theorem plain_hsetStep {t : Tally} (ht : PlainBatch t.batch) (pair : Bytes × Bytes) :
    PlainWith Tally.batch (hsetStep k v t pair) := by
  have hput := ht.append (plainBatch_put (not_indexed_subkey k v pair.1) pair.2)
  exact plain_lookup hput fun _ => hput

theorem plain_hdelStep {t : Tally} (ht : PlainBatch t.batch) (field : Bytes) :
    PlainWith Tally.batch (hdelStep k v t field) :=
  plain_lookup ht fun _ => ht.append (plainBatch_delete _)

theorem plain_saddStep {st : List Bytes × Tally} (hst : PlainBatch st.2.batch) (member : Bytes) :
    PlainWith (fun st => st.2.batch) (saddStep k v st member) := by
  unfold saddStep
  split
  · exact hst
  · exact plain_lookup (hst.append (plainBatch_put (not_indexed_subkey k v member) [])) fun _ => hst

theorem plain_sremStep {st : List Bytes × Tally} (hst : PlainBatch st.2.batch) (member : Bytes) :
    PlainWith (fun st => st.2.batch) (sremStep k v st member) := by
  unfold sremStep
  split
  · exact hst
  · exact plain_lookup hst fun _ => hst.append (plainBatch_delete _)

theorem plain_zremStep {st : List Bytes × Tally} (hst : PlainBatch st.2.batch) (member : Bytes) :
    PlainWith (fun st => st.2.batch) (zremStep k v st member) := by
  unfold zremStep
  split
  · exact hst
  · refine plain_lookup hst fun raw => ?_
    dsimp only
    unfold decodeStoredScore
    split
    · exact hst.append ((plainBatch_delete _).append (plainBatch_delete _))
    · trivial

theorem plain_elements {step : β → γ → StoreM β} {batch : β → WriteBatch}
    (hstep : ∀ b c, PlainBatch (batch b) → PlainWith batch (step b c)) (cs : List γ) {b : β}
    (hb : PlainBatch (batch b)) {f : β → StoreM α} (hf : ∀ b, PlainBatch (batch b) → Plainly (f b)) :
    Plainly (cs.foldlM step b >>= f) := by
  have hloop : PlainWith batch (cs.foldlM step b) := Prog.Yields.foldlM hstep cs hb
  exact hloop.only_bind hf

theorem plain_pushStep (left : Bool) (values : List Bytes) {e : Ends} (he : PlainBatch e.batch) :
    PlainBatch (values.foldl (pushStep k v left) e).batch := by
  induction values generalizing e with
  | nil => exact he
  | cons value values ih =>
    apply ih
    unfold pushStep
    split <;> exact he.append (plainBatch_put (not_indexed_subkey k v _) value)

theorem plain_popLoop (left : Bool) (n : ℕ) {e : Ends} (he : PlainBatch e.batch) (out : List Bytes) :
    PlainWith (fun r => r.1.batch) (popLoop k v left n e out) := by
  induction n generalizing e out with
  | zero => exact he
  | succ n ih =>
    unfold popLoop
    split
    · refine ⟨trivial, fun a => ?_⟩
      cases a with
      | none => trivial
      | some value =>
        apply ih
        split <;> exact he.append (plainBatch_delete _)
    · exact he

/-- Only `zadd` puts something into the score index. -/
theorem KeyOp.plain (key : Key) {op : KeyOp} (hop : ∀ pairs, op ≠ .zadd pairs) : Plainly (op.prog key.1) := by
  by_cases hread : op.isRead
  · refine (KeyOp.only_readCall key hread).imp fun o ho => ?_
    cases o with
    | write b =>
      obtain rfl : b = [.delete (metaKey key.1)] := ho
      exact plainBatch_delete _
    | _ => trivial
  cases op with
  | zadd pairs => exact absurd rfl (hop pairs)
  | set value expireMs =>
    apply Plainly.map
    exact ⟨trivial, fun _ => ⟨trivial, fun version => ⟨PlainBatch.nil.putMeta _ _, fun _ => trivial⟩⟩⟩
  | del =>
    apply Plainly.map
    exact plain_live trivial fun m => plain_logicalDelete.bind fun _ => trivial
  | expireAt deadline =>
    apply Plainly.map
    exact plain_live trivial fun m => plain_write (PlainBatch.nil.putMeta _ _) _
  | hset pairs =>
    apply Plainly.map
    refine plain_new fun m => ?_
    exact plain_elements (fun t pair ht => plain_hsetStep ht pair) _ PlainBatch.nil fun t ht =>
      plain_write (ht.putMeta _ _) _
  | hdel fields =>
    apply Plainly.map
    refine plain_typed trivial fun m => ?_
    exact plain_elements (fun t field ht => plain_hdelStep ht field) _ PlainBatch.nil fun t ht =>
      plain_finishRemoval m ht
  | sadd members =>
    apply Plainly.map
    refine plain_new fun m => ?_
    refine plain_elements (fun st member hst => plain_saddStep hst member) _ PlainBatch.nil fun st hst => ?_
    split
    · exact plain_write (hst.putMeta _ _) _
    · trivial
  | srem members =>
    apply Plainly.map
    refine plain_typed trivial fun m => ?_
    exact plain_elements (fun st member hst => plain_sremStep hst member) _ PlainBatch.nil fun st hst =>
      plain_finishRemoval m hst
  | zrem members =>
    apply Plainly.map
    refine plain_typed trivial fun m => ?_
    exact plain_elements (fun st member hst => plain_zremStep hst member) _ PlainBatch.nil fun st hst =>
      plain_finishRemoval m hst
  | push values left =>
    apply Plainly.map
    refine plain_new fun m => ?_
    split
    · trivial
    · exact plain_write ((plain_pushStep left values PlainBatch.nil).putMeta _ _) _
  | pop count left =>
    apply Plainly.map
    refine plain_typed trivial fun m => ?_
    dsimp only
    split
    · trivial
    · rename_i bounds head tail hb
      have hloop : PlainWith (fun r => r.1.batch) (popLoop key.1 m.version left count ⟨head, tail, []⟩ []) :=
        plain_popLoop left count PlainBatch.nil []
      refine hloop.only_bind fun r hr => ?_
      split
      · trivial
      · split
        · exact ⟨hr, fun _ => plain_logicalDelete.bind fun _ => trivial⟩
        · exact plain_write (hr.putMeta _ _) _
  | _ => exact absurd rfl hread

/-- Any operation but `zadd` finds in the score index what it leaves there. -/
theorem Plainly.mem {p : StoreM α} (hp : Plainly p) {w : World} {raw : Bytes} (hraw : Indexed raw)
    (hmem : raw ∈ (p.run exec w).2.disk) : raw ∈ w.disk := by
  refine Prog.Only.run (R := fun s t : World => raw ∈ t.disk → raw ∈ s.disk) (fun _ => id)
    (fun _ _ _ h h' hraw => h (h' hraw)) (fun o s ho => ?_) hp w hmem
  cases o with
  | write b => exact fun hmem => PlainBatch.mem ho hraw hmem
  | compactRange => exact mem_compact
  | _ => exact id

end Plain

/-! ## Stores without strays -/

/-- All records but metadata are of some version of a key, and those of the score index not
of the live version of anything but a sorted set. -/
structure Tidy (d : Disk) : Prop where
  owned : ∀ raw ∈ d, [SUBKEY_PREFIX] <+: raw ∨ Indexed raw → ∃ k v, RecordOf k v raw
  indexed : ∀ raw ∈ d, Indexed raw → ∀ k m, RecordOf k m.version raw → readMeta d k = some m → m.composite →
    m.typeId = TYPE_ZSET

/-- What is done to a store that holds a keyspace leaves it without strays. -/
structure Clean (w : World) : Prop where
  exact : w.Exact
  installed : w.gcInstalled = true
  tidy : Tidy w.disk

section Tidy

variable {p : ℕ} {w : World} {ks : Keyspace} {d d' : Disk}

theorem Tidy.of_subset (h : Tidy d) (hsub : ∀ raw, raw ∈ d' → raw ∈ d)
    (hmeta : ∀ k m, readMeta d' k = some m → readMeta d k = some m) : Tidy d' where
  owned raw hraw := h.owned raw (hsub raw hraw)
  indexed raw hraw hindexed k m hrec hm := h.indexed raw (hsub raw hraw) hindexed k m hrec (hmeta k m hm)

theorem Refines.absent (h : Refines p w ks) {k : Bytes} (hlive : w.liveMeta k = none) : w.Absent k := by
  cases ha : ks.alive w.ms.head k with
  | none => exact (h.keys k).absent ha
  | some e =>
    obtain ⟨-, m, hm, -⟩ := (h.keys k).live ha
    rw [hm] at hlive
    cases hlive

/-- `zadd` leaves a sorted set, or the score index as it was. -/
theorem tidy_zadd (h : Refines p w ks) (hw : Tidy w.disk) (key : Key) (pairs : List (F64 × Bytes)) {raw : Bytes}
    (hmem : raw ∈ ((Op.keyed key (.zadd pairs)).run w).2.disk) (hraw : Indexed raw) {m' : Meta}
    (hrec : RecordOf key.1 m'.version raw)
    (hm' : readMeta ((Op.keyed key (.zadd pairs)).run w).2.disk key.1 = some m') (hc : m'.composite) :
    m'.typeId = TYPE_ZSET := by
  cases hlive : w.liveMeta key.1 with
  | none => exact creation_typeId key rfl rfl (h.absent hlive) (h.ahead.unused key.1) hm'
  | some m =>
    by_cases ht : m.typeId = TYPE_ZSET
    · exact (run_typeId_live key hlive hm' hc).trans ht
    · have hwants : (KeyOp.zadd pairs).wants = some TYPE_ZSET := rfl
      have hsame := (run_mistyped hwants hlive ht).2
      rw [hsame] at hmem hm'
      exact hw.indexed raw hmem hraw key.1 m' hrec hm' hc

theorem tidy_keyed (h : Refines p w ks) (hw : Tidy w.disk) (key : Key) (op : KeyOp) :
    Tidy ((Op.keyed key op).run w).2.disk where
  owned raw hmem hraw := by
    by_cases hown : ∃ v, RecordOf key.1 v raw
    · exact ⟨key.1, hown⟩
    · have hmeta : raw ≠ metaKey key.1 := by
        rintro rfl
        obtain hraw | hraw := hraw <;>
          simp [metaKey, Indexed, META_PREFIX, SUBKEY_PREFIX, ZSCORE_PREFIX] at hraw
      have hsame := op.run_getElem?_foreign key hmeta (fun v hv => hown ⟨v, hv⟩) w
      refine hw.owned raw ?_ hraw
      rw [ExtTreeMap.mem_iff_isSome_getElem?] at hmem ⊢
      exact hsame ▸ hmem
  indexed raw hmem hraw k m' hrec hm' hc := by
    by_cases hk : key.1 = k
    · subst hk
      by_cases hop : ∃ pairs, op = .zadd pairs
      · obtain ⟨pairs, rfl⟩ := hop
        exact tidy_zadd h hw key pairs hmem hraw hrec hm' hc
      · have hbefore : raw ∈ w.disk :=
          (op.plain key fun pairs he => hop ⟨pairs, he⟩).mem hraw hmem
        obtain ⟨m, hm, ht, hv⟩ | ⟨-, hv⟩ := readMeta_run key hm' hc
        · -- The record was there before, under the same version of the same type.
          rw [← ht]
          refine hw.indexed raw hbefore hraw key.1 m (hv ▸ hrec) hm ?_
          rwa [Meta.composite, ht]
        · -- A new version had no records.
          have hnone := h.ahead.unused key.1 raw (hv ▸ hrec)
          rw [ExtTreeMap.mem_iff_isSome_getElem?, hnone] at hbefore
          cases hbefore
    · have hsame := op.run_getElem?_of_ne key hk (.inr ⟨_, hrec⟩) w
      have hmeta := op.run_getElem?_of_ne key hk (.inl rfl) w
      refine hw.indexed raw ?_ hraw k m' hrec ((readMeta_congr hmeta).symm.trans hm') hc
      rw [ExtTreeMap.mem_iff_isSome_getElem?] at hmem ⊢
      exact hsame ▸ hmem

theorem tidy_compact (sel : Bytes → Bool) (hw : Tidy w.disk) : Tidy (w.compact sel).disk :=
  hw.of_subset (fun _ => mem_compact) fun k _ hm =>
    (readMeta_congr (getElem?_compact_metaKey sel w.toStore k)).symm.trans hm

theorem tidy_flushed (d : Disk) : Tidy (flushed d) := by
  have hnone : ∀ raw, Stored raw → raw ∉ flushed d := by
    intro raw hraw hmem
    rw [ExtTreeMap.mem_iff_isSome_getElem?, getElem?_flushed, if_pos hraw] at hmem
    cases hmem
  exact ⟨fun raw hmem hraw => absurd hmem (hnone raw (.inr hraw)),
    fun raw hmem hraw => absurd hmem (hnone raw (.inr (.inr hraw)))⟩

theorem clean_opened (hw : Tidy d) (clock : Clock) : Clean (World.opened d clock) where
  exact := exact_opened d clock
  installed := by rw [opened_eq]
  tidy := by
    rw [opened_eq]
    exact hw

theorem Clean.compact (h : Clean w) (sel : Bytes → Bool) : Clean (w.compact sel) where
  exact k := (h.exact k).trans (diskVersion_compact sel w.toStore k).symm
  installed := h.installed
  tidy := tidy_compact sel h.tidy

theorem Clean.step (hw : Clean w) (h : Refines p w ks) {op : Op} (hproper : op.Proper) : Clean (op.run w).2 where
  exact := by
    refine exact_step (e := .run op) ?_ hw.exact
    cases op with
    | keyed key op => exact ⟨hproper.called, fun _ _ => h.ahead.unused key.1⟩
    | _ => trivial
  installed := gcInstalled_run op.prog hw.installed
  tidy := by
    cases op with
    | keyed key op => exact tidy_keyed h hw.tidy key op
    | dbsize => exact hw.tidy
    | rawSubkeyCount => exact hw.tidy
    | compact => exact tidy_compact _ hw.tidy
    | flushAll => exact tidy_flushed w.disk

theorem Clean.run {ds : List Deed} (hw : Clean w) (h : Refines p w ks) (hds : WellRun w ds)
    (hsmall : ks.StaysSmall (w.requests ds)) (hroom : p + pushedBy (w.requests ds) < 2 ^ 63) :
    Clean (w.afterDeeds ds) := by
  induction ds generalizing p w ks with
  | nil => exact hw
  | cons d ds ih =>
    cases d with
    | ask op =>
      obtain ⟨hproper, hissue, hrest⟩ := hds
      obtain ⟨hfit, hsmall⟩ := hsmall
      have hsum : pushedBy (w.requests (.ask op :: ds)) = op.pushCount + pushedBy ((op.run w).2.requests ds) := by
        simp [pushedBy, World.requests]
      rw [hsum, ← Nat.add_assoc] at hroom
      exact ih (hw.step h hproper) (h.step hproper hissue hfit (by omega)).2 hrest hsmall hroom
    | compaction sel => exact ih (hw.compact sel) (h.compact sel) hds hsmall hroom
    | restart clock => exact ih (clean_opened hw.tidy clock) (h.opened hds.1) hds.2 hsmall hroom

end Tidy

/-! ## Counting what is left -/

/-- How many records there are for the elements of a value. -/
def Value.size : Value → ℕ
  | .string _ => 0
  | .hash h => h.size
  | .set s => s.size
  | .zset z => z.size
  | .list l => l.length

/-- And how many more there are in the score index. -/
def Value.scores : Value → ℕ
  | .zset z => z.size
  | _ => 0

/-- How many versioned records a keyspace needs. -/
def Keyspace.records (ks : Keyspace) : ℕ := (ks.toList.map fun entry => entry.2.value.size + entry.2.value.scores).sum

/-- The records of a key under its live version, in one of the two families. -/
def recordsUnder (family : Bytes → UInt64 → Bytes) (d : Disk) (k : Bytes) : Finset Bytes :=
  match diskVersion d k with
  | none => ∅
  | some v => ((prefixScan d (family k v)).map Prod.fst).toFinset

section Count

variable {p : ℕ} {w : World} {ks : Keyspace} {d : Disk} {k : Bytes} {m : Meta} {e : Entry}
  {family : Bytes → UInt64 → Bytes}

theorem mem_recordsUnder {raw : Bytes} :
    raw ∈ recordsUnder family d k ↔ ∃ v, diskVersion d k = some v ∧ raw ∈ d ∧ family k v <+: raw := by
  unfold recordsUnder
  cases hv : diskVersion d k with
  | none => simp
  | some v => simp [mem_map_fst_prefixScan]

theorem card_recordsUnder {v : UInt64} (hv : diskVersion d k = some v) :
    (recordsUnder family d k).card = (prefixScan d (family k v)).length := by
  rw [recordsUnder, hv]
  dsimp only
  rw [List.toFinset_card_of_nodup (prefixScan_keys_nodup d _), List.length_map]

theorem card_elements {v head tail : UInt64} {l : List Bytes} (h : Spells d k v head tail l) :
    (members d k v).card = l.length := by
  have hwidth := h.width
  have htail := tail.toNat_lt
  have himage : members d k v =
      (Finset.range l.length).image fun i => listIndexField (head + UInt64.ofNat i) := by
    ext field
    rw [mem_members, h.isSome_iff, Finset.mem_image]
    constructor
    · rintro ⟨index, hlo, hhi, rfl⟩
      rw [UInt64.le_iff_toNat_le] at hlo
      rw [UInt64.lt_iff_toNat_lt] at hhi
      refine ⟨index.toNat - head.toNat, Finset.mem_range.mpr (by omega), congrArg listIndexField ?_⟩
      apply UInt64.toNat_inj.mp
      rw [UInt64.toNat_add, UInt64.toNat_ofNat']
      omega
    · rintro ⟨i, hi, rfl⟩
      rw [Finset.mem_range] at hi
      have hindex : (head + UInt64.ofNat i).toNat = head.toNat + i := by
        rw [UInt64.toNat_add, UInt64.toNat_ofNat']
        omega
      refine ⟨head + UInt64.ofNat i, ?_, ?_, rfl⟩
      · rw [UInt64.le_iff_toNat_le]
        omega
      · rw [UInt64.lt_iff_toNat_lt]
        omega
  rw [himage, Finset.card_image_of_injOn, Finset.card_range]
  intro i hi j hj hij
  have hi := Finset.mem_range.mp hi
  have hj := Finset.mem_range.mp hj
  have heq := congrArg UInt64.toNat (u64Be_injective hij)
  rw [UInt64.toNat_add, UInt64.toNat_add, UInt64.toNat_ofNat', UInt64.toNat_ofNat'] at heq
  omega

/-- One record for every element. -/
theorem card_subkeys (hm : readMeta d k = some m) (h : Holds p d k m e.value) :
    (recordsUnder subkeyPrefix d k).card = e.value.size := by
  have hversion : m.composite → diskVersion d k = some m.version := fun hc =>
    diskVersion_eq_some.mpr ⟨m, hm, hc, rfl⟩
  have hlive : ∀ {n : ℕ}, m.composite → (members d k m.version).card = n →
      (recordsUnder subkeyPrefix d k).card = n := by
    intro n hc hn
    rw [card_recordsUnder (hversion hc), ← card_members, hn]
  cases hval : e.value with
  | string bytes =>
    rw [hval] at h
    have hnone : diskVersion d k = none := by
      rw [diskVersion, hm, Option.bind_some, if_neg]
      simp [Meta.composite, h.1, TYPE_STRING, TYPE_HASH, TYPE_SET, TYPE_ZSET, TYPE_LIST]
    rw [recordsUnder, hnone]
    rfl
  | hash fields =>
    rw [hval] at h
    refine hlive (composite_of_type (.inl h.typed)) ?_
    rw [h.members_eq, card_keySet]
    rfl
  | set elements =>
    rw [hval] at h
    refine hlive (composite_of_type (.inr (.inl h.typed))) ?_
    rw [h.records, card_keySet]
    rfl
  | zset scores =>
    rw [hval] at h
    refine hlive (composite_of_type (.inr (.inr (.inl h.1.typed)))) ?_
    exact card_eq_size fun x => h.1.dual.mem_members
  | list elements =>
    rw [hval] at h
    obtain ⟨q, hq, hl⟩ := h
    obtain ⟨head, tail, hb, hs, -⟩ := hl.ends
    exact hlive (composite_of_type (.inr (.inr (.inr hl.typed)))) (card_elements hs)

/-- And one in the score index for every member of a sorted set, and none for anything else. -/
theorem card_scores (hk : k.length < 2 ^ 32) (htidy : Tidy d) (hm : readMeta d k = some m)
    (h : Holds p d k m e.value) : (recordsUnder zscorePrefix d k).card = e.value.scores := by
  by_cases hz : m.typeId = TYPE_ZSET
  · have hv : diskVersion d k = some m.version :=
      diskVersion_eq_some.mpr ⟨m, hm, composite_of_type (.inr (.inr (.inl hz))), rfl⟩
    cases hval : e.value with
    | zset scores =>
      rw [hval] at h
      rw [card_recordsUnder hv, ← List.length_map (f := fun item : Bytes × Bytes =>
        scoredMember (item.1.drop (zscorePrefix k m.version).length))]
      exact h.1.dual.length_entriesOf.trans (card_eq_size fun x => h.1.dual.mem_members)
    | _ =>
      rw [hval] at h
      have ht := h.typeId.symm.trans hz
      cases ht
  · have hscores : e.value.scores = 0 := by
      cases hval : e.value with
      | zset scores =>
        rw [hval] at h
        exact absurd h.1.typed hz
      | _ => rfl
    rw [hscores, Finset.card_eq_zero, Finset.eq_empty_iff_forall_notMem]
    intro raw hraw
    obtain ⟨v, hv, hmem, hpre⟩ := mem_recordsUnder.mp hraw
    obtain ⟨m', hm', hc, rfl⟩ := diskVersion_eq_some.mp hv
    obtain rfl : m = m' := Option.some.inj (hm.symm.trans hm')
    have hrec : RecordOf k m.version raw := parseOwnerVersion_eq_some.mpr ⟨hk, .inr hpre⟩
    have hindexed : Indexed raw := List.IsPrefix.trans ⟨_, rfl⟩ hpre
    exact hz (htidy.indexed raw hmem hindexed k m hrec hm hc)

/-- When every record of a family is of the live version of some key, the scan over the
family finds those of each key and no others. -/
theorem length_scan {byte : UInt8} (hfamily : ∀ k v, [byte] <+: family k v)
    (hrec : ∀ k v raw, k.length < 2 ^ 32 → family k v <+: raw → RecordOf k v raw)
    (hown : ∀ raw ∈ d, [byte] <+: raw → ∃ k v, diskVersion d k = some v ∧ family k v <+: raw)
    (hkeys : ∀ k v, diskVersion d k = some v → k ∈ keySet ks ∧ k.length < 2 ^ 32) :
    (prefixScan d [byte]).length = ∑ k ∈ keySet ks, (recordsUnder family d k).card := by
  have hunion : ((prefixScan d [byte]).map Prod.fst).toFinset = (keySet ks).biUnion (recordsUnder family d) := by
    ext raw
    rw [List.mem_toFinset, mem_map_fst_prefixScan, Finset.mem_biUnion]
    constructor
    · rintro ⟨hmem, hraw⟩
      obtain ⟨k, v, hv, hpre⟩ := hown raw hmem hraw
      exact ⟨k, (hkeys k v hv).1, mem_recordsUnder.mpr ⟨v, hv, hmem, hpre⟩⟩
    · rintro ⟨k, -, hk⟩
      obtain ⟨v, -, hmem, hpre⟩ := mem_recordsUnder.mp hk
      exact ⟨hmem, (hfamily k v).trans hpre⟩
  rw [← List.length_map (f := Prod.fst), ← List.toFinset_card_of_nodup (prefixScan_keys_nodup d _), hunion,
    Finset.card_biUnion]
  -- A record is of one key only.
  intro k _ k' _ hne
  rw [Function.onFun, Finset.disjoint_left]
  intro raw hraw hraw'
  obtain ⟨v, hv, -, hpre⟩ := mem_recordsUnder.mp hraw
  obtain ⟨v', hv', -, hpre'⟩ := mem_recordsUnder.mp hraw'
  have hone := (hrec k v raw (hkeys k v hv).2 hpre).symm.trans (hrec k' v' raw (hkeys k' v' hv').2 hpre')
  exact hne (congrArg Prod.fst (Option.some.inj hone))

/-- The keys that have a live version are keys of the keyspace. -/
theorem Refines.mem_keySet (h : Refines p w ks) {v : UInt64} (hv : diskVersion w.disk k = some v) :
    k ∈ keySet ks ∧ k.length < 2 ^ 32 := by
  have hk := h.keys k
  rw [Lib.mem_keySet]
  cases he : ks[k]? with
  | none =>
    rw [he] at hk
    rw [diskVersion, readMeta, show w.disk[metaKey k]? = none from hk] at hv
    cases hv
  | some e =>
    rw [he] at hk
    exact ⟨rfl, hk.1⟩

theorem not_both {raw : Bytes} (hsub : [SUBKEY_PREFIX] <+: raw) (hscore : [ZSCORE_PREFIX] <+: raw) : False := by
  obtain ⟨rest, rfl⟩ := hsub
  simp [SUBKEY_PREFIX, ZSCORE_PREFIX] at hscore

/-- A disk without stale records has the records that the keyspace needs. -/
theorem Refines.length_scans (h : Refines p w ks) (hw : Tidy w.disk)
    (hfresh : ∀ raw ∈ w.disk, ∀ k v, RecordOf k v raw → diskVersion w.disk k = some v) :
    (prefixScan w.disk [SUBKEY_PREFIX]).length + (prefixScan w.disk [ZSCORE_PREFIX]).length = ks.records := by
  have hsub : (prefixScan w.disk [SUBKEY_PREFIX]).length =
      ∑ k ∈ keySet ks, (recordsUnder subkeyPrefix w.disk k).card := by
    refine length_scan (fun k v => ⟨_, rfl⟩) (fun k v raw hk hpre => parseOwnerVersion_eq_some.mpr ⟨hk, .inl hpre⟩)
      (fun raw hmem hraw => ?_) fun k v hv => h.mem_keySet hv
    obtain ⟨k, v, hrec⟩ := hw.owned raw hmem (.inl hraw)
    refine ⟨k, v, hfresh raw hmem k v hrec, (parseOwnerVersion_eq_some.mp hrec).2.resolve_right fun hpre => ?_⟩
    exact not_both hraw ((show [ZSCORE_PREFIX] <+: zscorePrefix k v from ⟨_, rfl⟩).trans hpre)
  have hscore : (prefixScan w.disk [ZSCORE_PREFIX]).length =
      ∑ k ∈ keySet ks, (recordsUnder zscorePrefix w.disk k).card := by
    refine length_scan (fun k v => ⟨_, rfl⟩) (fun k v raw hk hpre => parseOwnerVersion_eq_some.mpr ⟨hk, .inr hpre⟩)
      (fun raw hmem hraw => ?_) fun k v hv => h.mem_keySet hv
    obtain ⟨k, v, hrec⟩ := hw.owned raw hmem (.inr hraw)
    refine ⟨k, v, hfresh raw hmem k v hrec, (parseOwnerVersion_eq_some.mp hrec).2.resolve_left fun hpre => ?_⟩
    exact not_both ((show [SUBKEY_PREFIX] <+: subkeyPrefix k v from ⟨_, rfl⟩).trans hpre) hraw
  rw [hsub, hscore, ← Finset.sum_add_distrib, keySet, List.sum_toFinset _ ExtTreeMap.nodup_keys,
    ← ExtTreeMap.map_fst_toList_eq_keys, List.map_map, Keyspace.records]
  congr 1
  refine List.map_congr_left fun entry hentry => ?_
  have he := ExtTreeMap.mem_toList_iff_getElem?_eq_some.mp hentry
  have hk := h.keys entry.1
  rw [he] at hk
  obtain ⟨hlen, -, m, hm, -, hv⟩ := hk
  exact congrArg₂ (· + ·) (card_subkeys hm hv) (card_scores hlen hw hm hv)

/-- `RAWCOUNT` counts both families. -/
theorem run_rawSubkeyCount (w : World) : (Op.rawSubkeyCount.run w).1 =
    .ok (.int ((prefixScan w.disk [SUBKEY_PREFIX]).length + (prefixScan w.disk [ZSCORE_PREFIX]).length)) := rfl

theorem Refines.rawSubkeyCount_compacted (h : Refines p w ks) (hw : Clean w) :
    (Op.rawSubkeyCount.run (Op.compact.run w).2).1 = .ok (.int ks.records) := by
  have hfresh : ∀ raw ∈ (w.compact fun _ => true).disk, ∀ k v, RecordOf k v raw →
      diskVersion (w.compact fun _ => true).disk k = some v := by
    intro raw hmem k v hrec
    rw [ExtTreeMap.mem_iff_isSome_getElem?, Option.isSome_iff_exists] at hmem
    obtain ⟨value, hvalue⟩ := hmem
    obtain ⟨-, hkept⟩ := (getElem?_fullCompaction hw.exact hw.installed raw value).mp hvalue
    by_contra hstale
    exact hkept ⟨k, v, hrec, fun hv => hstale ((diskVersion_compact _ w.toStore k).trans hv)⟩
  have hcount := (h.compact fun _ => true).length_scans (tidy_compact _ hw.tidy) hfresh
  rw [← hcount]
  push_cast
  exact run_rawSubkeyCount _

/-- No record that is needed is ever missing. -/
theorem records_le_scans (h : Refines p w ks) (hw : Clean w) : ks.records ≤
    (prefixScan w.disk [SUBKEY_PREFIX]).length + (prefixScan w.disk [ZSCORE_PREFIX]).length := by
  have hle : ∀ pre, (prefixScan (w.compact fun _ => true).disk pre).length ≤ (prefixScan w.disk pre).length := by
    intro pre
    have hkept : ∀ raw, pre <+: raw → (w.compact fun _ => true).disk[raw]? =
        if w.filterKeeps raw then w.disk[raw]? else none := by
      intro raw _
      refine (getElem?_compact _ w.toStore raw).trans ?_
      cases w.filterKeeps raw <;> rfl
    rw [prefixScan_kept hkept]
    exact List.length_filter_le _ _
  have hcompacted := h.rawSubkeyCount_compacted hw
  have hcount : (((prefixScan (w.compact fun _ => true).disk [SUBKEY_PREFIX]).length +
      (prefixScan (w.compact fun _ => true).disk [ZSCORE_PREFIX]).length : ℕ) : ℤ) = ks.records := by
    push_cast
    exact Reply.int.inj (Except.ok.inj ((run_rawSubkeyCount _).symm.trans hcompacted))
  have hsub := hle [SUBKEY_PREFIX]
  have hscore := hle [ZSCORE_PREFIX]
  omega

end Count

/-- After requests, compactions and restarts of a store that was empty, on the conditions
under which it refines the keyspace, `RAWCOUNT` counts a record at least for every element
of the keyspace and another one for every member of a sorted set; and after `COMPACT` it
counts these and nothing else. -/
theorem compaction_reclaims (clock : Clock) (ds : List Deed) (hds : WellRun (World.opened ∅ clock) ds)
    (hsmall : Keyspace.StaysSmall ∅ ((World.opened ∅ clock).requests ds))
    (hpush : pushedBy ((World.opened ∅ clock).requests ds) < 2 ^ 63) :
    (∃ n, Keyspace.records (Keyspace.after ∅ ((World.opened ∅ clock).requests ds)) ≤ n ∧
        (Op.rawSubkeyCount.run ((World.opened ∅ clock).afterDeeds ds)).1 = .ok (.int n)) ∧
      (Op.rawSubkeyCount.run (Op.compact.run ((World.opened ∅ clock).afterDeeds ds)).2).1 =
        .ok (.int (Keyspace.records (Keyspace.after ∅ ((World.opened ∅ clock).requests ds)))) := by
  have hempty : Clean (World.opened ∅ clock) :=
    clean_opened ⟨fun raw hraw => absurd hraw ExtTreeMap.not_mem_empty,
      fun raw hraw => absurd hraw ExtTreeMap.not_mem_empty⟩ clock
  have hclean := hempty.run (refines_opened clock) hds hsmall (by omega)
  obtain ⟨-, hrun⟩ := (refines_opened clock).run hds hsmall (by omega)
  refine ⟨⟨_, records_le_scans hrun hclean, ?_⟩, hrun.rawSubkeyCount_compacted hclean⟩
  rw [run_rawSubkeyCount]
  push_cast
  rfl

/-- A hash was replaced by a list of one element; the sorted set beside it has two members. -/
theorem compaction_reclaims_rebuiltHistory :
    (Op.rawSubkeyCount.run (Op.compact.run ((World.opened ∅ (stillClock 7 5)).afterDeeds rebuiltHistory)).2).1 =
      .ok (.int 5) := by
  have hreclaims := compaction_reclaims (stillClock 7 5) rebuiltHistory wellRun_rebuiltHistory
    staysSmall_rebuiltHistory (by decide +kernel)
  have hrecords : Keyspace.records
      (Keyspace.after ∅ ((World.opened ∅ (stillClock 7 5)).requests rebuiltHistory)) = 5 := by
    decide +kernel
  rw [hrecords] at hreclaims
  exact hreclaims.2

end GameStore
