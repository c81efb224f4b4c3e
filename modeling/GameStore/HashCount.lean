import GameStore.Readback

/-!
# The field count of a hash

`hset` counts a listed field as new when the engine has no record of it, and the
engine does not see the batch being built. The count is that of the records as
long as no call names a new field twice.
-/

namespace GameStore

open Lib Std

/-! ## What a run gives a hash -/

def Event.givenTo (key : Key) : Event → List (Bytes × Bytes)
  | .run (.keyed key' (.hset pairs)) => if key' = key then pairs else []
  | _ => []

/-- All pairs the calls of a run give to the hash, in order. -/
def given (key : Key) (es : List Event) : List (Bytes × Bytes) := es.flatMap (Event.givenTo key)

/-- The listed fields that were not given before, as often as they are listed. -/
def newFields (before pairs : List (Bytes × Bytes)) : List Bytes :=
  (pairs.map Prod.fst).filter fun f => f ∉ before.map Prod.fst

def fieldCountOf (pairs : List (Bytes × Bytes)) : ℕ := (pairs.map Prod.fst).dedup.length

theorem fieldCountOf_append {before pairs : List (Bytes × Bytes)} (h : (newFields before pairs).Nodup) :
    fieldCountOf (before ++ pairs) = fieldCountOf before + (newFields before pairs).length := by
  have hunion : ((before ++ pairs).map Prod.fst).toFinset =
      (before.map Prod.fst).toFinset ∪ (newFields before pairs).toFinset := by
    ext f
    simp only [newFields, List.map_append, List.toFinset_append, Finset.mem_union, List.mem_toFinset,
      List.mem_filter, decide_eq_true_eq]
    tauto
  have hdisj : Disjoint (before.map Prod.fst).toFinset (newFields before pairs).toFinset := by
    rw [Finset.disjoint_left]
    intro f hf hn
    rw [List.mem_toFinset] at hf
    rw [List.mem_toFinset, newFields, List.mem_filter, decide_eq_true_eq] at hn
    exact hn.2 hf
  rw [fieldCountOf, fieldCountOf, ← List.card_toFinset, ← List.card_toFinset, hunion,
    Finset.card_union_of_disjoint hdisj, List.toFinset_card_of_nodup h]

/-- `hset`'s own count of new fields, on records that hold what was given. -/
theorem absentPairs_eq {d : Disk} {k : Bytes} {v : UInt64} {before : List (Bytes × Bytes)}
    (h : ∀ f, d[subkey k v f]? = before.reverse.lookup f) (pairs : List (Bytes × Bytes)) :
    absentPairs d k v pairs = (newFields before pairs).length := by
  rw [absentPairs, newFields, List.filter_map, List.length_map, ← List.countP_eq_length_filter]
  congr 1
  funext p
  rw [Bool.eq_iff_iff, h, Option.isNone_iff_eq_none, lookup_reverse_eq_none, Function.comp_apply,
    decide_eq_true_eq]

/-! ## The state of the hash -/

/-- The key holds a hash with the pairs given, under the metadata `m`. -/
structure HoldsPairs (k : Bytes) (pairs : List (Bytes × Bytes)) (d : Disk) (m : Meta) : Prop where
  typed : m.typeId = TYPE_HASH
  lasting : m.expireMs = 0
  counted : m.fieldCount.toNat = fieldCountOf pairs
  fields : ∀ f, d[subkey k m.version f]? = pairs.reverse.lookup f

/-- What the calls so far have left: nothing, or a hash with their pairs. -/
def HashState (k : Bytes) (pairs : List (Bytes × Bytes)) (d : Disk) : Prop :=
  if pairs = [] then d[metaKey k]? = none
  else ∃ m, readMeta d k = some m ∧ HoldsPairs k pairs d m

/-- Once the metadata is loaded or made, the rest of `hset`. -/
theorem hset_keeps {k : Bytes} (hk : k.length < 2 ^ 32) {before pairs : List (Bytes × Bytes)}
    {w w' : World} {m : Meta}
    (hload : (loadOrCreate k TYPE_HASH fun m => m.setFieldCount 0).run exec w = (.ok m, w'))
    (hm : HoldsPairs k before w'.disk m) (hne : pairs ≠ []) (honce : (newFields before pairs).Nodup)
    (hroom : fieldCountOf (before ++ pairs) < 2 ^ 32) :
    ∃ s, (hset k pairs).run exec w = (.ok (newFields before pairs).length, s) ∧
      HashState k (before ++ pairs) s.disk := by
  have hrun := run_hset pairs hload
  rw [absentPairs_eq hm.fields] at hrun
  refine ⟨_, hrun, ?_⟩
  rw [HashState, if_neg (by simp [hne])]
  refine ⟨_, (readMeta_putMeta (fieldPuts_records hk pairs) _ _ _).trans (if_pos rfl), hm.typed,
    hm.lasting, ?_, fun f => ?_⟩
  · have hc : m.counted := by simp [Meta.counted, hm.typed]
    rw [fieldCountOf_append honce] at hroom ⊢
    rw [Meta.fieldCount_setFieldCount hc, UInt32.toNat_add, hm.counted, UInt32.toNat_ofNat']
    omega
  · have hf : RecordOf k m.version (subkey k m.version f) := parseOwnerVersion_subkey hk _ f
    change (applyBatch _ _)[subkey k m.version f]? = _
    rw [getElem?_record_putMeta _ _ _ hf, getElem?_fieldPuts, hm.fields, List.reverse_append,
      List.lookup_append]

/-- A call on the hash: it lists something, names no new field twice, leaves the
count below `2 ^ 32`, and if it creates the hash, no field record is there under
the version it will get. -/
structure HashCall (key : Key) (before : List (Bytes × Bytes)) (w : World)
    (pairs : List (Bytes × Bytes)) : Prop where
  lists : pairs ≠ []
  once : (newFields before pairs).Nodup
  room : fieldCountOf (before ++ pairs) < 2 ^ 32
  unused : before = [] → ∀ f, w.disk[subkey key.1 w.nextIssue f]? = none

theorem hset_step {key : Key} {before pairs : List (Bytes × Bytes)} {w : World}
    (hcall : HashCall key before w pairs) (hw : HashState key.1 before w.disk) :
    ∃ s, (hset key.1 pairs).run exec w = (.ok (newFields before pairs).length, s) ∧
      HashState key.1 (before ++ pairs) s.disk := by
  by_cases hb : before = []
  · subst hb
    rw [HashState, if_pos rfl] at hw
    obtain ⟨w', hload, hd⟩ := run_loadOrCreate_absent (.inl hw) TYPE_HASH fun m => m.setFieldCount 0
    refine hset_keeps key.2 hload ⟨rfl, rfl, ?_, fun f => ?_⟩ hcall.lists hcall.once hcall.room
    · exact congrArg UInt32.toNat (Meta.fieldCount_setFieldCount (m := newMeta TYPE_HASH _) rfl 0)
    · rw [hd, getElem?_erase_bytes]
      change (if _ then none else w.disk[subkey key.1 w.nextIssue f]?) = none
      rw [hcall.unused rfl, ite_self]
  · rw [HashState, if_neg hb] at hw
    obtain ⟨m, hm, hpairs⟩ := hw
    have hlive : w.liveMeta key.1 = some m := by simp [World.liveMeta, hm, hpairs.lasting]
    obtain ⟨w', hload, hst, -⟩ := run_loadOrCreate_live hlive fun m => m.setFieldCount 0
    rw [hpairs.typed] at hload
    have hd : w'.disk = w.disk := by rw [hst]
    exact hset_keeps key.2 hload (hd ▸ hpairs) hcall.lists hcall.once hcall.room

/-- Operations on other keys do not touch the hash. -/
theorem hashState_foreign {key key' : Key} (hne : key' ≠ key) (op : KeyOp)
    {pairs : List (Bytes × Bytes)} {w : World} (hw : HashState key.1 pairs w.disk) :
    HashState key.1 pairs ((Op.keyed key' op).run w).2.disk := by
  have hval : key'.1 ≠ key.1 := fun h => hne (Subtype.ext h)
  have hmeta : ((Op.keyed key' op).run w).2.disk[metaKey key.1]? = w.disk[metaKey key.1]? :=
    op.run_getElem?_foreign key' (fun h => hval (metaKey_inj.mp h).symm)
      (fun v h => h.ne_metaKey key.1 rfl) w
  have hrec : ∀ v f, ((Op.keyed key' op).run w).2.disk[subkey key.1 v f]? =
      w.disk[subkey key.1 v f]? := by
    intro v f
    have hown : RecordOf key.1 v (subkey key.1 v f) := parseOwnerVersion_subkey key.2 v f
    refine op.run_getElem?_foreign key' (hown.ne_metaKey key'.1) (fun u h => ?_) w
    have := h.symm.trans hown
    simp only [Option.some.injEq, Prod.mk.injEq] at this
    exact hval this.1
  unfold HashState at hw ⊢
  split at hw
  · rw [if_pos ‹_›, hmeta]
    exact hw
  · obtain ⟨m, hm, hp⟩ := hw
    rw [if_neg ‹_›, readMeta_congr hmeta]
    exact ⟨m, hm, hp.typed, hp.lasting, hp.counted, fun f => (hrec _ f).trans (hp.fields f)⟩

/-! ## What a client sees -/

/-- `HLEN` is the length of `HGETALL`, which maps each field to its last value. -/
def CountsRight (k : Bytes) (pairs : List (Bytes × Bytes)) (w : World) : Prop :=
  ∃ l, ((hgetall k).run exec w).1 = .ok l ∧ ((hlen k).run exec w).1 = .ok l.length ∧
    (l.map Prod.fst).Nodup ∧ ∀ f value, (f, value) ∈ l ↔ pairs.reverse.lookup f = some value

theorem countsRight_missing {k : Bytes} {w : World} (h : w.disk[metaKey k]? = none) :
    CountsRight k [] w := by
  obtain ⟨w', hload, -, -⟩ := run_loadTyped_absent (.inl h) TYPE_HASH
  refine ⟨[], ?_, ?_, List.nodup_nil, by simp⟩
  · rw [hgetall, Prog.run_bind_ok _ hload]
    rfl
  · rw [hlen, storedCount, Prog.run_bind_ok _ hload]
    rfl

theorem HoldsPairs.countsRight {k : Bytes} {pairs : List (Bytes × Bytes)} {w : World} {m : Meta}
    (hm : readMeta w.disk k = some m) (h : HoldsPairs k pairs w.disk m) : CountsRight k pairs w := by
  set l := (prefixScan w.disk (subkeyPrefix k m.version)).map
    fun item => (item.1.drop (subkeyPrefix k m.version).length, item.2) with hl
  have hmem : ∀ f value, (f, value) ∈ l ↔ pairs.reverse.lookup f = some value := by
    intro f value
    rw [hl, mem_hgetall_scan, h.fields]
  have hnd : (l.map Prod.fst).Nodup := by
    rw [hl, List.map_map]
    exact suffixes_nodup w.disk (subkeyPrefix k m.version)
  have hlength : l.length = fieldCountOf pairs := by
    rw [fieldCountOf, ← List.length_map Prod.fst]
    apply List.Perm.length_eq
    rw [List.perm_ext_iff_of_nodup hnd (List.nodup_dedup _)]
    intro f
    have hgiven : f ∉ pairs.map Prod.fst ↔ ∀ value, (f, value) ∉ l := by
      rw [← lookup_reverse_eq_none, Option.eq_none_iff_forall_ne_some]
      exact forall_congr' fun value => not_congr (hmem f value).symm
    rw [List.mem_dedup, ← not_iff_not, hgiven]
    simp
  refine ⟨l, ?_, ?_, hnd, hmem⟩
  · rw [run_hgetall hm h.lasting h.typed]
  · rw [hlen, storedCount, ← h.typed, Prog.run_bind_ok _ (run_loadTyped hm h.lasting), hlength,
      ← h.counted]
    rfl

theorem HashState.countsRight {k : Bytes} {pairs : List (Bytes × Bytes)} {w : World}
    (h : HashState k pairs w.disk) : CountsRight k pairs w := by
  unfold HashState at h
  split at h
  · rename_i hp
    exact hp ▸ countsRight_missing h
  · obtain ⟨m, hm, hp⟩ := h
    exact hp.countsRight hm

/-! ## Whole runs -/

/-- A step of a run of `hset` calls on the key and of anything on other keys. -/
def HashStep (key : Key) (before : List (Bytes × Bytes)) (w : World) : Event → Prop
  | .run (.keyed key' (.hset pairs)) => key' = key → HashCall key before w pairs
  | .run (.keyed key' _) => key' ≠ key
  | _ => False

def HashRun (key : Key) : List (Bytes × Bytes) → World → List Event → Prop
  | _, _, [] => True
  | before, w, e :: es =>
    HashStep key before w e ∧ HashRun key (before ++ e.givenTo key) (e.apply w) es

theorem hashState_step {key : Key} {before : List (Bytes × Bytes)} {w : World} {e : Event}
    (he : HashStep key before w e) (hw : HashState key.1 before w.disk) :
    HashState key.1 (before ++ e.givenTo key) (e.apply w).disk := by
  match e with
  | .run (.keyed key' op) =>
    by_cases hk : key' = key
    · subst hk
      cases op with
      | hset pairs =>
        obtain ⟨s, hrun, hs⟩ := hset_step (he rfl) hw
        have happly : Event.apply w (.run (.keyed key' (.hset pairs))) = s := by
          change ((Reply.int <$> hset key'.1 pairs).run exec w).2 = s
          rw [Prog.run_map, hrun]
        rw [happly, Event.givenTo, if_pos rfl]
        exact hs
      | _ => exact absurd rfl he
    · have hgiven : Event.givenTo key (.run (.keyed key' op)) = [] := by
        cases op with
        | hset pairs => exact if_neg hk
        | _ => rfl
      rw [hgiven, List.append_nil]
      exact hashState_foreign hk op hw

theorem hashState_run {key : Key} {es : List Event} {before : List (Bytes × Bytes)} {w : World}
    (hes : HashRun key before w es) (hw : HashState key.1 before w.disk) :
    HashState key.1 (before ++ given key es) (w.after es).disk := by
  induction es generalizing before w with
  | nil => simpa [given, World.after] using hw
  | cons e es ih =>
    rw [given, List.flatMap_cons, ← List.append_assoc]
    exact ih hes.2 (hashState_step hes.1 hw)

theorem HashRun.append {key : Key} {es es' : List Event} {before : List (Bytes × Bytes)} {w : World}
    (h : HashRun key before w (es ++ es')) : HashRun key before w es ∧
      HashRun key (before ++ given key es) (w.after es) es' := by
  induction es generalizing before w with
  | nil => exact ⟨trivial, by simpa [given, World.after] using h⟩
  | cons e es ih =>
    obtain ⟨h₁, h₂⟩ := ih h.2
    refine ⟨⟨h.1, h₁⟩, ?_⟩
    rw [given, List.flatMap_cons, ← List.append_assoc]
    exact h₂

/-- From a missing key, in every state of a run of `hset` calls none of which
names a new field twice, among any operations on other keys. -/
theorem hash_count_of_new_fields_once (key : Key) (w : World) (hmiss : w.disk[metaKey key.1]? = none)
    (es : List Event) (hes : HashRun key [] w es) :
    CountsRight key.1 (given key es) (w.after es) ∧
      ∀ es' pairs, es' ++ [.run (.keyed key (.hset pairs))] <+: es →
        ((Op.keyed key (.hset pairs)).run (w.after es')).1 =
          .ok (.int (newFields (given key es') pairs).dedup.length) := by
  have hstart : HashState key.1 [] w.disk := (if_pos rfl).mpr hmiss
  refine ⟨(hashState_run hes hstart).countsRight, ?_⟩
  rintro es' pairs ⟨rest, rfl⟩
  obtain ⟨hes', hcall⟩ := hes.append.1.append
  have hcall : HashCall key (given key es') (w.after es') pairs := hcall.1 rfl
  obtain ⟨s, hrun, -⟩ := hset_step hcall (hashState_run hes' hstart)
  rw [Op.run, Op.prog, KeyOp.prog, Prog.run_map, hrun, hcall.once.dedup]
  rfl

/-- The field of a new hash named twice is counted twice. -/
theorem hash_miscounts_repeated_new_field :
    ¬ CountsRight [107] [([102], [49]), ([102], [50])] ((World.opened ∅ (stillClock 7 5)).after
        [.run (.keyed Key.k (.hset [([102], [49]), ([102], [50])]))]) ∧
      ((Op.keyed Key.k (.hset [([102], [49]), ([102], [50])])).run
        (World.opened ∅ (stillClock 7 5))).1 = .ok (.int 2) := by
  refine ⟨?_, by decide +kernel⟩
  rintro ⟨l, hl, hn, -⟩
  have hall : ((hgetall [107]).run exec ((World.opened ∅ (stillClock 7 5)).after
      [.run (.keyed Key.k (.hset [([102], [49]), ([102], [50])]))])).1 =
      .ok [([102], [50])] := by decide +kernel
  have hlen : ((hlen [107]).run exec ((World.opened ∅ (stillClock 7 5)).after
      [.run (.keyed Key.k (.hset [([102], [49]), ([102], [50])]))])).1 = .ok 2 := by
    decide +kernel
  rw [hl] at hall
  obtain rfl := Except.ok.inj hall
  rw [hlen] at hn
  exact absurd (Except.ok.inj hn) (by decide)

/-- Two calls, the second naming an old field twice and a new one once, with
another key written in between. -/
def twoCalls : List Event :=
  [.run (.keyed Key.k (.hset [([102], [49])])),
    .run (.keyed Key.l (.sadd [[120]])),
    .run (.keyed Key.k (.hset [([102], [50]), ([103], [51]), ([102], [52])]))]

theorem hash_count_twoCalls : HashRun Key.k [] (World.opened ∅ (stillClock 7 5)) twoCalls ∧
    CountsRight [107] [([102], [49]), ([102], [50]), ([103], [51]), ([102], [52])]
      ((World.opened ∅ (stillClock 7 5)).after twoCalls) := by
  have hes : HashRun Key.k [] (World.opened ∅ (stillClock 7 5)) twoCalls := by
    refine ⟨fun _ => ⟨by decide, by decide, by decide, fun _ f => ?_⟩,
      fun h => absurd (congrArg Subtype.val h) (by decide), fun _ => ⟨by decide, by decide, by decide,
        fun h => absurd h (by decide)⟩, trivial⟩
    rw [opened_eq]
    exact ExtTreeMap.getElem?_empty
  exact ⟨hes, (hash_count_of_new_fields_once Key.k _ (by decide +kernel) twoCalls hes).1⟩

end GameStore
