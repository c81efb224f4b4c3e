import GameStore.SortedSets

/-!
# The order of the score index

Records of the index are in the order of their bytes. That is the numeric order of the
scores, but for the two zeros, which are equal as numbers and one after the other as bytes.
-/

namespace GameStore

open Lib Std

/-! ## Encoded scores -/

namespace F64

/-- Where the encoding puts a score: `-0.0` has a place of its own, just below `0.0`. -/
def place (x : F64) : ℤ := if x.negative then -1 - x.magnitude else x.magnitude

theorem magnitude_lt (x : F64) : x.magnitude < 2 ^ 63 := Nat.mod_lt _ (by decide)

theorem lt_iff {a b : F64} (ha : a.isNaN = false) (hb : b.isNaN = false) : a.lt b ↔ a.ordinal < b.ordinal := by
  simp [lt, ha, hb]

theorem eq_iff {a b : F64} (ha : a.isNaN = false) (hb : b.isNaN = false) : a.eq b ↔ a.ordinal = b.ordinal := by
  simp [F64.eq, ha, hb]

theorem ordinal_le_of_place_lt {a b : F64} (h : a.place < b.place) : a.ordinal ≤ b.ordinal := by
  rw [place, place] at h
  rw [ordinal, ordinal]
  split_ifs at h ⊢ <;> omega

end F64

theorem toNat_xor_signBit {x : UInt64} (h : x.toNat < 2 ^ 63) : (x ^^^ SIGN_BIT).toNat = x.toNat + 2 ^ 63 := by
  have hs : SIGN_BIT.toNat = 2 ^ 63 := by decide
  have hor := Nat.two_pow_add_eq_or_of_lt h 1
  rw [Nat.mul_one] at hor
  rw [UInt64.toNat_xor, hs, Nat.xor_comm, Nat.add_comm, hor]
  apply Nat.eq_of_testBit_eq
  intro i
  rw [Nat.testBit_xor, Nat.testBit_or, Nat.testBit_two_pow]
  by_cases hi : 63 = i
  · subst hi
    rw [Nat.testBit_lt_two_pow h]
    rfl
  · simp [hi]

theorem encodeScore_eq (s : F64) : encodeScore s = beBytes 8 (2 ^ 63 + s.place).toNat := by
  have hlt := s.bits.toNat_lt
  have hneg := s.negative_iff
  rw [encodeScore, u64Be]
  congr 1
  by_cases h : s.bits &&& SIGN_BIT ≠ 0
  · have hn : s.negative = true := decide_eq_true h
    have hle := hneg.mp hn
    rw [if_pos h, UInt64.toNat_not, F64.place, if_pos hn, F64.magnitude]
    simp only [UInt64.size]
    omega
  · have hn : ¬ s.negative = true := fun hn => h (of_decide_eq_true hn)
    have hle := mt hneg.mpr hn
    rw [if_neg h, toNat_xor_signBit (by omega), F64.place, if_neg hn, F64.magnitude]
    omega

theorem compare_encodeScore (s t : F64) : compare (encodeScore s) (encodeScore t) = .lt ↔ s.place < t.place := by
  have hs := s.magnitude_lt
  have ht := t.magnitude_lt
  have hrange : ∀ x : F64, x.magnitude < 2 ^ 63 → -(2 ^ 63 : ℤ) ≤ x.place ∧ x.place < 2 ^ 63 := by
    intro x hx
    rw [F64.place]
    split
    · omega
    · omega
  have hs' := hrange s hs
  have ht' := hrange t ht
  rw [encodeScore_eq, encodeScore_eq, compare_beBytes (by omega) (by omega), compare_lt_iff_lt]
  omega

/-! ## The index -/

/-- Entries in the order of their index records. -/
def IndexOrder (e e' : Bytes × F64) : Prop :=
  e.2.place < e'.2.place ∨ e.2 = e'.2 ∧ compare e.1 e'.1 = .lt

theorem compare_zscoreKey (k : Bytes) (v : UInt64) (e e' : Bytes × F64) :
    compare (zscoreKey k v e.2 e.1) (zscoreKey k v e'.2 e'.1) = .lt ↔ IndexOrder e e' := by
  rw [zscoreKey_eq, zscoreKey_eq, compare_append_left, compare_append (by simp), Ordering.then_eq_lt,
    compare_encodeScore, compare_eq_bytes, encodeScore_injective.eq_iff, IndexOrder]

theorem IndexOrder.ordinal_le {e e' : Bytes × F64} (h : IndexOrder e e') : e.2.ordinal ≤ e'.2.ordinal := by
  rcases h with h | ⟨h, -⟩
  · exact F64.ordinal_le_of_place_lt h
  · rw [h]

section Index

variable {d : Disk} {k : Bytes} {v : UInt64} {score : Bytes → Option F64}

theorem DualRecords.entriesOf_ordered (h : DualRecords d k v score) : (entriesOf d k v).Pairwise IndexOrder := by
  have hkeys : ((entriesOf d k v).map fun e => zscoreKey k v e.2 e.1).Pairwise fun a b => compare a b = .lt := by
    rw [← h.indexes]
    exact List.pairwise_map.mpr (prefixScan_sorted d (zscorePrefix k v))
  exact (List.pairwise_map.mp hkeys).imp fun {e e'} he => (compare_zscoreKey k v e e').mp he

theorem DualRecords.entriesOf_numeric (h : DualRecords d k v score) (hnum : Numeric score) :
    ∀ e ∈ entriesOf d k v, e.2.isNaN = false := by
  intro e he
  exact hnum e.1 e.2 (h.mem_entriesOf.mp he)

end Index

/-! ## Ranges of scores -/

/-- The score is between the bounds. -/
def within (min : F64) (minExclusive : Bool) (max : F64) (maxExclusive : Bool) (s : F64) : Bool :=
  (min.lt s || (!minExclusive && min.eq s)) && (s.lt max || (!maxExclusive && s.eq max))

section ScoreRange

variable {min max : F64} {minExclusive maxExclusive : Bool}

theorem within_iff {s : F64} (hmin : min.isNaN = false) (hmax : max.isNaN = false) (hs : s.isNaN = false) :
    within min minExclusive max maxExclusive s ↔
      (min.ordinal < s.ordinal ∨ minExclusive = false ∧ min.ordinal = s.ordinal) ∧
        (s.ordinal < max.ordinal ∨ maxExclusive = false ∧ s.ordinal = max.ordinal) := by
  simp only [within, Bool.and_eq_true, Bool.or_eq_true, F64.lt_iff hmin hs, F64.eq_iff hmin hs,
    F64.lt_iff hs hmax, F64.eq_iff hs hmax, Bool.not_eq_true']

/-- The loop leaves at the first score above the range; from there on no score is in it. -/
theorem zrangeByScoreLoop_filter {plen : ℕ} (hmin : min.isNaN = false) (hmax : max.isNaN = false)
    {items : List (Bytes × Bytes)}
    (hsplit : ∀ item ∈ items, splitSuffix plen item.1 = .ok (scoredMember (item.1.drop plen)))
    (hnum : ∀ item ∈ items, (scoredMember (item.1.drop plen)).2.isNaN = false)
    (hsorted : (items.map fun item => scoredMember (item.1.drop plen)).Pairwise
      fun e e' => e.2.ordinal ≤ e'.2.ordinal) :
    zrangeByScoreLoop plen min minExclusive max maxExclusive items =
      .ok ((items.map fun item => scoredMember (item.1.drop plen)).filter
        fun e => within min minExclusive max maxExclusive e.2) := by
  induction items with
  | nil => rfl
  | cons item items ih =>
    rw [List.map_cons, List.pairwise_cons] at hsorted
    have hrest := ih (fun i hi => hsplit i (List.mem_cons_of_mem _ hi))
      (fun i hi => hnum i (List.mem_cons_of_mem _ hi)) hsorted.2
    have hs := hnum item List.mem_cons_self
    rw [zrangeByScoreLoop, hsplit item List.mem_cons_self, List.map_cons, Prog.ok_bind]
    set e := scoredMember (item.1.drop plen)
    -- The comparisons of the source, as comparisons of ordinals.
    have habove : (max.lt e.2 || (maxExclusive && e.2.eq max)) = true ↔
        max.ordinal < e.2.ordinal ∨ maxExclusive = true ∧ e.2.ordinal = max.ordinal := by
      rw [Bool.or_eq_true, Bool.and_eq_true, F64.lt_iff hmax hs, F64.eq_iff hs hmax]
    have hbelow : (e.2.lt min || (minExclusive && e.2.eq min)) = true ↔
        e.2.ordinal < min.ordinal ∨ minExclusive = true ∧ e.2.ordinal = min.ordinal := by
      rw [Bool.or_eq_true, Bool.and_eq_true, F64.lt_iff hs hmin, F64.eq_iff hs hmin]
    by_cases hgt : (max.lt e.2 || (maxExclusive && e.2.eq max)) = true
    · rw [if_pos hgt]
      rw [habove] at hgt
      rw [List.filter_eq_nil_iff.mpr]
      · rfl
      · intro e' he'
        have hle : e.2.ordinal ≤ e'.2.ordinal ∧ e'.2.isNaN = false := by
          rcases List.mem_cons.mp he' with rfl | he'
          · exact ⟨le_rfl, hs⟩
          · obtain ⟨i, hi, rfl⟩ := List.mem_map.mp he'
            exact ⟨hsorted.1 _ he', hnum i (List.mem_cons_of_mem _ hi)⟩
        rw [within_iff hmin hmax hle.2]
        rintro ⟨-, h | ⟨hincl, h⟩⟩
        · omega
        · rcases hgt with hgt | ⟨hexcl, -⟩
          · omega
          · rw [hincl] at hexcl
            cases hexcl
    · rw [if_neg hgt]
      rw [habove, not_or, not_and] at hgt
      by_cases hlt : (e.2.lt min || (minExclusive && e.2.eq min)) = true
      · rw [if_pos hlt, hrest, List.filter_cons_of_neg]
        rw [hbelow] at hlt
        rw [within_iff hmin hmax hs]
        rintro ⟨h | ⟨hincl, h⟩, -⟩
        · omega
        · rcases hlt with hlt | ⟨hexcl, -⟩
          · omega
          · rw [hincl] at hexcl
            cases hexcl
      · rw [if_neg hlt, hrest, List.filter_cons_of_pos]
        · rfl
        · rw [hbelow, not_or, not_and] at hlt
          rw [within_iff hmin hmax hs]
          constructor
          · by_cases hexcl : minExclusive = true
            · have := hlt.2 hexcl
              left
              omega
            · simp only [hexcl, true_and]
              omega
          · by_cases hexcl : maxExclusive = true
            · have := hgt.2 hexcl
              left
              omega
            · simp only [hexcl, true_and]
              omega

end ScoreRange

/-! ## `zrange` and `zrange_by_score` -/

theorem filter_zipIdx_lt {α : Type} (l : List α) (i c : ℕ) :
    ((l.zipIdx i).filter fun p => decide (p.2 < i + c)).map Prod.fst = l.take c := by
  induction l generalizing i c with
  | nil => simp
  | cons a l ih =>
    cases c with
    | zero =>
      rw [List.take_zero, List.map_eq_nil_iff, List.filter_eq_nil_iff]
      intro p hp
      have := List.le_snd_of_mem_zipIdx hp
      simpa using this
    | succ c =>
      have hshift : ∀ p : α × ℕ, decide (p.2 < i + (c + 1)) = decide (p.2 < i + 1 + c) := by
        intro p
        congr 1
        rw [Nat.add_assoc, Nat.add_comm 1 c]
      rw [List.zipIdx_cons, List.filter_cons_of_pos (by simp), List.map_cons, List.take_succ_cons,
        ← ih (i + 1) c]
      simp only [hshift]

/-- From the first to the last. -/
theorem selects_all (c r : ℕ) : Selects 0 (-1) c r ↔ r < c := by
  have hstart : rankOf 0 c = 0 := rfl
  have hstop : rankOf (-1) c = -1 + c := rfl
  rw [Selects, hstart, hstop]
  omega

/-- A step of a sequential run that lists no NaN. -/
def NumericStep (w : World) : Event → Prop
  | .run op => Ascending w (.run op) ∧ op.numeric
  | _ => False

theorem zsetsKept_run {clock : Clock} {es : List Event} (hes : Steps NumericStep (World.opened ∅ clock) es) :
    Kept TYPE_ZSET (ZSetKept True) ((World.opened ∅ clock).after es).disk := by
  refine (hes.induction (I := fun w => w.Orderly ∧ Kept TYPE_ZSET (ZSetKept True) w.disk)
    (fun w e he h => ?_) ⟨orderly_opened clock, zsetsKept_opened True clock⟩).2
  match e with
  | .failing op n => exact he.elim
  | .restart clock => exact he.elim
  | .run op => exact ⟨orderly_step he.1 h.1, zsetsKept_step he.1 (fun _ => he.2) h.1 h.2⟩

/-- `zrange_by_score` returns what is left of `zrange key 0 -1` when the scores outside the
bounds are taken out. -/
def ScoreRangesFilter (w : World) (key : Key) : Prop :=
  ∀ min minExclusive max maxExclusive, min.isNaN = false → max.isNaN = false →
    ∃ all, ((Op.keyed key (.zrange 0 (-1))).run w).1 = .ok (.scored all) ∧
      ((Op.keyed key (.zrangeByScore min minExclusive max maxExclusive)).run w).1 =
        .ok (.scored (all.filter fun e => within min minExclusive max maxExclusive e.2))

section Whole

variable {w : World} {key : Key} {m : Meta} {score : Bytes → Option F64}

theorem run_zrange_all (hlive : w.liveMeta key.1 = some m) (ht : m.typeId = TYPE_ZSET)
    (h : DualRecords w.disk key.1 m.version score) : ((Op.keyed key (.zrange 0 (-1))).run w).1 =
      .ok (.scored ((entriesOf w.disk key.1 m.version).take m.fieldCount.toNat)) := by
  have hall := run_zrange_counted hlive ht h.indexes 0 (-1)
  simp only [selects_all] at hall
  have htake := filter_zipIdx_lt (entriesOf w.disk key.1 m.version) 0 m.fieldCount.toNat
  rw [Nat.zero_add] at htake
  rw [htake] at hall
  exact (run_keyed key (.zrange 0 (-1)) rfl hall).1

theorem run_zrangeByScore (hlive : w.liveMeta key.1 = some m) (ht : m.typeId = TYPE_ZSET)
    (h : DualRecords w.disk key.1 m.version score) (hnum : Numeric score) {min max : F64}
    (hmin : min.isNaN = false) (hmax : max.isNaN = false) (minExclusive maxExclusive : Bool) :
    ((Op.keyed key (.zrangeByScore min minExclusive max maxExclusive)).run w).1 =
      .ok (.scored ((entriesOf w.disk key.1 m.version).filter
        fun e => within min minExclusive max maxExclusive e.2)) := by
  obtain ⟨w', hload, hst, -⟩ := run_loadTyped_live hlive
  rw [ht] at hload
  have hd : w'.disk = w.disk := by rw [hst]
  have hscan : exec (.scanPrefix (zscorePrefix key.1 m.version)) w' =
      (prefixScan w.disk (zscorePrefix key.1 m.version), w') := by rw [← hd]; rfl
  have hloop : zrangeByScoreLoop (zscorePrefix key.1 m.version).length min minExclusive max maxExclusive
      (prefixScan w.disk (zscorePrefix key.1 m.version)) = .ok ((entriesOf w.disk key.1 m.version).filter
        fun e => within min minExclusive max maxExclusive e.2) := by
    apply zrangeByScoreLoop_filter hmin hmax
    · exact fun item => h.indexes.splitSuffix
    · exact fun item hitem => h.entriesOf_numeric hnum _ (List.mem_map.mpr ⟨item, hitem, rfl⟩)
    · exact h.entriesOf_ordered.imp fun he => he.ordinal_le
  have hrun : ((zrangeByScore key.1 min minExclusive max maxExclusive).run exec w).1 =
      .ok ((entriesOf w.disk key.1 m.version).filter fun e => within min minExclusive max maxExclusive e.2) := by
    rw [zrangeByScore, Prog.run_bind_ok _ hload]
    dsimp only
    rw [Prog.perform_bind, Prog.run_call, hscan]
    dsimp only
    rw [hloop]
    rfl
  exact (run_keyed key (.zrangeByScore min minExclusive max maxExclusive) rfl hrun).1

/-- Every number is between the infinities. -/
theorem within_infinities {s : F64} (hs : s.isNaN = false) :
    within ⟨0xFFF0000000000000⟩ false ⟨0x7FF0000000000000⟩ false s := by
  rw [within_iff (by decide) (by decide) hs]
  have hlow : (⟨0xFFF0000000000000⟩ : F64).ordinal = -0x7FF0000000000000 := by decide
  have hhigh : (⟨0x7FF0000000000000⟩ : F64).ordinal = 0x7FF0000000000000 := by decide
  have hmag : s.magnitude ≤ 0x7FF0000000000000 := by simpa [F64.isNaN] using hs
  rw [hlow, hhigh, F64.ordinal]
  simp only [true_and]
  split
  · omega
  · omega

/-- The two agree exactly as long as the stored count reaches the last member. -/
theorem scoreRangesFilter_iff (hlive : w.liveMeta key.1 = some m) (ht : m.typeId = TYPE_ZSET)
    (h : DualRecords w.disk key.1 m.version score) (hnum : Numeric score) :
    ScoreRangesFilter w key ↔ (members w.disk key.1 m.version).card ≤ m.fieldCount.toNat := by
  rw [← h.length_entriesOf]
  constructor
  · intro hfilter
    obtain ⟨all, hall, hrange⟩ := hfilter ⟨0xFFF0000000000000⟩ false ⟨0x7FF0000000000000⟩ false
      (by decide) (by decide)
    rw [run_zrange_all hlive ht h] at hall
    rw [run_zrangeByScore hlive ht h hnum (by decide) (by decide)] at hrange
    have hnumeric := h.entriesOf_numeric hnum
    simp only [Except.ok.injEq, Reply.scored.injEq] at hall hrange
    subst hall
    rw [List.filter_eq_self.mpr fun e he => within_infinities (hnumeric e he),
      List.filter_eq_self.mpr fun e he => within_infinities (hnumeric e (List.mem_of_mem_take he))] at hrange
    have hlen := congrArg List.length hrange
    rw [List.length_take] at hlen
    omega
  · intro hle min minExclusive max maxExclusive hmin hmax
    refine ⟨_, run_zrange_all hlive ht h, ?_⟩
    rw [run_zrangeByScore hlive ht h hnum hmin hmax, List.take_of_length_le hle]

end Whole

/-- In every state of a sequential run from an empty store without NaN scores, and for every
live sorted set: the score ranges are the filtered `zrange`, for all bounds and flags, if
and only if the set has fewer than `2 ^ 32` members. -/
theorem score_ranges_filter_iff (clock : Clock) (es : List Event)
    (hes : Steps NumericStep (World.opened ∅ clock) es) (key : Key) (m : Meta)
    (hlive : ((World.opened ∅ clock).after es).liveMeta key.1 = some m) (ht : m.typeId = TYPE_ZSET) :
    ScoreRangesFilter ((World.opened ∅ clock).after es) key ↔
      (members ((World.opened ∅ clock).after es).disk key.1 m.version).card < 2 ^ 32 := by
  have hkept := zsetsKept_run hes key m (readMeta_of_liveMeta hlive) ht
  obtain ⟨score, hdual, hnum⟩ := hkept.dual
  have hcount := congrArg UInt32.toNat hkept.count
  rw [UInt32.toNat_ofNat'] at hcount
  rw [scoreRangesFilter_iff hlive ht hdual (hnum trivial), hcount]
  omega

theorem numericStep_of_check {w : World} {op : Op} (hnum : op.numeric)
    (h : op.prog.Always exec (fun o w => o.issuesAbove w) w) : NumericStep w (.run op) :=
  ⟨ascending_of_check h, hnum⟩

theorem steps_zsetHistory : Steps NumericStep (World.opened ∅ (stillClock 7 5)) zsetHistory :=
  ⟨numericStep_of_check (by simp only [Op.numeric]; decide +kernel) (by decide +kernel),
    numericStep_of_check (by simp only [Op.numeric]; decide +kernel) (by decide +kernel),
    numericStep_of_check trivial (by decide +kernel), trivial⟩

theorem card_zsetHistory (v : UInt64) :
    (members ((World.opened ∅ (stillClock 7 5)).after zsetHistory).disk Key.k.1 v).card < 2 ^ 32 := by
  rw [card_members]
  exact Nat.lt_of_le_of_lt (length_prefixScan_le _ _) (by decide +kernel)

theorem score_ranges_filter_zsetHistory :
    ScoreRangesFilter ((World.opened ∅ (stillClock 7 5)).after zsetHistory) Key.k := by
  have hlive : (((World.opened ∅ (stillClock 7 5)).after zsetHistory).liveMeta Key.k.1).map Meta.typeId =
      some TYPE_ZSET := by decide +kernel
  obtain ⟨m, hm, ht⟩ := Option.map_eq_some_iff.mp hlive
  exact (score_ranges_filter_iff (stillClock 7 5) zsetHistory steps_zsetHistory Key.k m hm ht).mpr
    (card_zsetHistory m.version)

/-! ### A count that wraps around -/

section Crowd

/-- Only the load issues a version. -/
theorem ascending_zadd {key : Key} {w : World} (h : Ascending w (.run (.keyed key (.zadd []))))
    (pairs : List (F64 × Bytes)) : Ascending w (.run (.keyed key (.zadd pairs))) := by
  have hdecode : ∀ (raw : Bytes) (f : F64 → StoreM Tally), (∀ s w, (f s).Always exec Increasing w) →
      ∀ w, (decodeStoredScore raw >>= f).Always exec Increasing w := by
    intro raw f hf w
    rw [decodeStoredScore]
    split
    · exact hf _ w
    · trivial
  have hstep : ∀ (v : UInt64) (t : Tally) (p : Bytes × F64) (w : World),
      (zaddStep key.1 v t p).Always exec Increasing w := by
    intro v t p w
    rw [zaddStep, Prog.perform_bind]
    refine ⟨trivial, ?_⟩
    dsimp only
    split
    · refine hdecode _ _ (fun s w => ?_) _
      split
      · trivial
      · trivial
    · trivial
  have hload : (loadOrCreate key.1 TYPE_ZSET fun m => m.setFieldCount 0).Always exec Increasing w := h.left.left
  change (Reply.int <$> zadd key.1 pairs).Always exec Increasing w
  rw [Prog.map_eq, zadd]
  refine (hload.bind exec fun m w => (Prog.Always.foldlM exec (hstep m.version) _ _ w).bind exec
    fun t w => ?_).bind exec fun _ _ => trivial
  split
  · trivial
  · exact ⟨trivial, trivial⟩

/-- One pair for every number below `n`. -/
def crowd (n : ℕ) : List (F64 × Bytes) := (List.range n).map fun i => (F64.POS_ZERO, beBytes 8 i)

theorem crowd_card {n : ℕ} (hn : n ≤ 2 ^ 32) : (((crowd n).map Prod.snd).toFinset).card = n := by
  have hnd : ((crowd n).map Prod.snd).Nodup := by
    rw [crowd, List.map_map]
    refine List.Nodup.map_on ?_ List.nodup_range
    intro i hi j hj he
    rw [List.mem_range] at hi hj
    exact beBytes_inj (by omega) (by omega) he
  rw [List.toFinset_card_of_nodup hnd, crowd, List.length_map, List.length_map, List.length_range]

/-- What `zadd` makes of an absent key. -/
theorem zadd_absent {w : World} (hw : w.Orderly) {key : Key} (habs : w.Absent key.1) {pairs : List (F64 × Bytes)}
    (hne : pairs ≠ []) (he : Ascending w (.run (.keyed key (.zadd pairs)))) :
    ∃ m, readMeta (w.after [.run (.keyed key (.zadd pairs))]).disk key.1 = some m ∧ m.typeId = TYPE_ZSET ∧
      m.expireMs = 0 ∧ members (w.after [.run (.keyed key (.zadd pairs))]).disk key.1 m.version =
        (pairs.map Prod.snd).toFinset := by
  obtain ⟨w', hload, hd⟩ := run_loadOrCreate_absent habs TYPE_ZSET fun m => m.setFieldCount 0
  have hnew : Unused w'.disk key.1 w.nextIssue :=
    hd ▸ (hw.unused (show (KeyOp.zadd pairs).creates from rfl) he habs).erase (metaKey key.1)
  obtain ⟨hreply, hup⟩ := zadd_upserted key.2 hload (dualRecords_unused key.2 hnew) pairs
  have hafter : w.after [.run (.keyed key (.zadd pairs))] = ((zadd key.1 pairs).run exec w).2 :=
    (run_keyed key (.zadd pairs) rfl hreply).2
  rw [hafter]
  have hgrown := hup.grown
  change members _ key.1 w.nextIssue = members w'.disk key.1 w.nextIssue ∪ _ at hgrown
  rw [members_unused key.2 hnew, Finset.empty_union] at hgrown
  rcases hup.stored with hsame | ⟨-, hm⟩
  · -- Something was written, for there was nothing before.
    rw [hsame, members_unused key.2 hnew, eq_comm, List.toFinset_eq_empty_iff, List.map_eq_nil_iff] at hgrown
    exact absurd hgrown hne
  · exact ⟨_, hm, rfl, rfl, hgrown⟩

/-- With `2 ^ 32` members the count is back at zero: `zrange` then finds nothing, and
`zrange_by_score` everything. -/
theorem not_scoreRangesFilter {clock : Clock} {key : Key} {pairs : List (F64 × Bytes)}
    (hes : Steps NumericStep (World.opened ∅ clock) [.run (.keyed key (.zadd pairs))])
    (hcard : ((pairs.map Prod.snd).toFinset).card = 2 ^ 32) :
    (∃ m, ((World.opened ∅ clock).after [.run (.keyed key (.zadd pairs))]).liveMeta key.1 = some m ∧
      m.typeId = TYPE_ZSET) ∧
      ¬ ScoreRangesFilter ((World.opened ∅ clock).after [.run (.keyed key (.zadd pairs))]) key := by
  have hne : pairs ≠ [] := by
    rintro rfl
    cases hcard
  have habs : (World.opened ∅ clock).Absent key.1 := by
    rw [opened_eq]
    exact .inl ExtTreeMap.getElem?_empty
  obtain ⟨m, hm, ht, hexpire, hmembers⟩ := zadd_absent (orderly_opened clock) habs hne hes.1.1
  have hlive : ((World.opened ∅ clock).after [.run (.keyed key (.zadd pairs))]).liveMeta key.1 = some m := by
    rw [World.liveMeta, hm]
    simp [hexpire]
  refine ⟨⟨m, hlive, ht⟩, fun hfilter => ?_⟩
  have hkept := zsetsKept_run hes key m hm ht
  obtain ⟨score, hdual, hnum⟩ := hkept.dual
  have hle := (scoreRangesFilter_iff hlive ht hdual (hnum trivial)).mp hfilter
  rw [hkept.count, hmembers, hcard] at hle
  exact absurd hle (by decide)

theorem score_ranges_differ_for_crowd :
    Steps NumericStep (World.opened ∅ (stillClock 7 5)) [.run (.keyed Key.k (.zadd (crowd (2 ^ 32))))] ∧
      (∃ m, ((World.opened ∅ (stillClock 7 5)).after [.run (.keyed Key.k (.zadd (crowd (2 ^ 32))))]).liveMeta
        Key.k.1 = some m ∧ m.typeId = TYPE_ZSET) ∧
      ¬ ScoreRangesFilter ((World.opened ∅ (stillClock 7 5)).after
        [.run (.keyed Key.k (.zadd (crowd (2 ^ 32))))]) Key.k := by
  have hes : Steps NumericStep (World.opened ∅ (stillClock 7 5))
      [.run (.keyed Key.k (.zadd (crowd (2 ^ 32))))] := by
    have hempty : NumericStep (World.opened ∅ (stillClock 7 5)) (.run (.keyed Key.k (.zadd []))) :=
      numericStep_of_check (fun p hp => nomatch hp) (by decide +kernel)
    refine ⟨⟨ascending_zadd hempty.1 _, fun p hp => ?_⟩, trivial⟩
    obtain ⟨i, -, rfl⟩ := List.mem_map.mp hp
    rfl
  exact ⟨hes, not_scoreRangesFilter hes (crowd_card le_rfl)⟩

end Crowd

/-! ## The order of `zrange` -/

/-- By score, and among numerically equal scores by the bytes of the member. -/
def ScoreOrder (e e' : Bytes × F64) : Prop := e.2.lt e'.2 ∨ e.2.eq e'.2 ∧ compare e.1 e'.1 = .lt

/-- `zrange key 0 -1` returns every member once, with its score, in order. -/
def ZRangeOrdered (w : World) (key : Key) : Prop :=
  ∃ all, ((Op.keyed key (.zrange 0 (-1))).run w).1 = .ok (.scored all) ∧ (all.map Prod.fst).Nodup ∧
    (∀ x s, (x, s) ∈ all ↔ ((Op.keyed key (.zscore x)).run w).1 = .ok (.score (some s))) ∧
    all.Pairwise ScoreOrder

/-- The members at `-0.0` come before those at `0.0` by their bytes too. -/
def ZerosApart (score : Bytes → Option F64) : Prop :=
  ∀ x y, score x = some F64.NEG_ZERO → score y = some F64.POS_ZERO → compare x y = .lt

/-- Scores that are equal as numbers, and not as bits, are the two zeros. -/
theorem F64.zeros_of_place_lt {a b : F64} (h : a.place < b.place) (he : a.ordinal = b.ordinal) :
    a = F64.NEG_ZERO ∧ b = F64.POS_ZERO := by
  rw [place, place] at h
  rw [ordinal, ordinal] at he
  have hneg : F64.NEG_ZERO.negative = true ∧ F64.NEG_ZERO.magnitude = 0 := by decide
  have hpos : F64.POS_ZERO.negative = false ∧ F64.POS_ZERO.magnitude = 0 := by decide
  by_cases ha : a.negative = true
  · by_cases hb : b.negative = true
    · rw [if_pos ha, if_pos hb] at h he
      omega
    · rw [if_pos ha, if_neg hb] at h he
      refine ⟨F64.ext_magnitude (by rw [ha, hneg.1]) (by omega), F64.ext_magnitude ?_ (by omega)⟩
      rw [hpos.1]
      exact Bool.not_eq_true _ ▸ hb
  · by_cases hb : b.negative = true
    · rw [if_neg ha, if_pos hb] at h he
      omega
    · rw [if_neg ha, if_neg hb] at h he
      omega

theorem IndexOrder.scoreOrder {e e' : Bytes × F64} (h : IndexOrder e e') (hs : e.2.isNaN = false)
    (hs' : e'.2.isNaN = false) (hzeros : e.2 = F64.NEG_ZERO → e'.2 = F64.POS_ZERO → compare e.1 e'.1 = .lt) :
    ScoreOrder e e' := by
  rw [ScoreOrder, F64.lt_iff hs hs', F64.eq_iff hs hs']
  rcases h with h | ⟨h, hlt⟩
  · rcases lt_or_eq_of_le (F64.ordinal_le_of_place_lt h) with hlt | heq
    · exact .inl hlt
    · obtain ⟨hneg, hpos⟩ := F64.zeros_of_place_lt h heq
      exact .inr ⟨heq, hzeros hneg hpos⟩
  · exact .inr ⟨congrArg F64.ordinal h, hlt⟩

theorem either_of_pairwise {α : Type} {R : α → α → Prop} {l : List α} (h : l.Pairwise R) {a b : α} (ha : a ∈ l)
    (hb : b ∈ l) (hne : a ≠ b) : R a b ∨ R b a := by
  have : Std.Symm fun a b => R a b ∨ R b a := ⟨fun _ _ h => h.symm⟩
  exact (h.imp (S := fun a b => R a b ∨ R b a) .inl).forall ha hb hne

section Order

variable {w : World} {key : Key} {m : Meta} {score : Bytes → Option F64}

theorem zrangeOrdered_iff (hlive : w.liveMeta key.1 = some m) (ht : m.typeId = TYPE_ZSET)
    (h : DualRecords w.disk key.1 m.version score) (hnum : Numeric score) :
    ZRangeOrdered w key ↔ (members w.disk key.1 m.version).card ≤ m.fieldCount.toNat ∧ ZerosApart score := by
  rw [← h.length_entriesOf]
  have hmem : ∀ x s, (x, s) ∈ entriesOf w.disk key.1 m.version ↔
      ((Op.keyed key (.zscore x)).run w).1 = .ok (.score (some s)) := by
    intro x s
    rw [h.mem_entriesOf, run_zscore_dual hlive ht h, Except.ok.injEq, Reply.score.injEq]
  have hnumeric := h.entriesOf_numeric hnum
  constructor
  · rintro ⟨all, hall, -, hscores, hordered⟩
    rw [run_zrange_all hlive ht h] at hall
    simp only [Except.ok.injEq, Reply.scored.injEq] at hall
    subst hall
    have hle : (entriesOf w.disk key.1 m.version).length ≤ m.fieldCount.toNat := by
      -- No entry is missing, and none is there twice.
      have hsub : (entriesOf w.disk key.1 m.version) ⊆
          (entriesOf w.disk key.1 m.version).take m.fieldCount.toNat := by
        rintro ⟨x, s⟩ hx
        exact (hscores x s).mpr ((hmem x s).mp hx)
      have hlen := (h.entriesOf_nodup.of_map.subperm hsub).length_le
      rw [List.length_take] at hlen
      omega
    refine ⟨hle, fun x y hx hy => ?_⟩
    rw [List.take_of_length_le hle] at hordered
    have hplaces : (F64.NEG_ZERO.place = -1 ∧ F64.POS_ZERO.place = 0) ∧
        F64.NEG_ZERO.lt F64.POS_ZERO = false := by decide
    have hzeros : F64.NEG_ZERO ≠ F64.POS_ZERO := by decide
    have hne : (x, F64.NEG_ZERO) ≠ (y, F64.POS_ZERO) := fun he => hzeros (congrArg Prod.snd he)
    rcases either_of_pairwise (h.entriesOf_ordered.and hordered) (h.mem_entriesOf.mpr hx)
      (h.mem_entriesOf.mpr hy) hne with ⟨-, hlt | ⟨-, hlt⟩⟩ | ⟨hback | ⟨hback, -⟩, -⟩
    · rw [hplaces.2] at hlt
      cases hlt
    · exact hlt
    · rw [hplaces.1.1, hplaces.1.2] at hback
      omega
    · exact absurd hback.symm hzeros
  · rintro ⟨hle, hzeros⟩
    refine ⟨_, run_zrange_all hlive ht h, ?_, ?_, ?_⟩
    · rw [List.take_of_length_le hle]
      exact h.entriesOf_nodup
    · rw [List.take_of_length_le hle]
      exact hmem
    · rw [List.take_of_length_le hle]
      refine h.entriesOf_ordered.imp_of_mem fun {e e'} he he' hord => ?_
      refine hord.scoreOrder (hnumeric e he) (hnumeric e' he') fun hneg hpos => ?_
      refine hzeros e.1 e'.1 ?_ ?_
      · rw [← hneg]
        exact h.mem_entriesOf.mp he
      · rw [← hpos]
        exact h.mem_entriesOf.mp he'

end Order

/-- In every state of a sequential run from an empty store without NaN scores, and for every
live sorted set: `zrange key 0 -1` is in order and complete if and only if the set has fewer
than `2 ^ 32` members, and the bytes of a member with score `-0.0` are always below those of a
member with score `0.0`. -/
theorem zrange_ordered_iff (clock : Clock) (es : List Event)
    (hes : Steps NumericStep (World.opened ∅ clock) es) (key : Key) (m : Meta)
    (hlive : ((World.opened ∅ clock).after es).liveMeta key.1 = some m) (ht : m.typeId = TYPE_ZSET) :
    ZRangeOrdered ((World.opened ∅ clock).after es) key ↔
      (members ((World.opened ∅ clock).after es).disk key.1 m.version).card < 2 ^ 32 ∧
      ∀ x y, ((World.opened ∅ clock).after es).disk[subkey key.1 m.version x]? = some (encodeScore F64.NEG_ZERO) →
        ((World.opened ∅ clock).after es).disk[subkey key.1 m.version y]? = some (encodeScore F64.POS_ZERO) →
        compare x y = .lt := by
  have hkept := zsetsKept_run hes key m (readMeta_of_liveMeta hlive) ht
  obtain ⟨score, hdual, hnum⟩ := hkept.dual
  have hstored : ∀ x s, ((World.opened ∅ clock).after es).disk[subkey key.1 m.version x]? =
      some (encodeScore s) ↔ score x = some s := by
    intro x s
    rw [hdual.member, ← Option.map_some, (Option.map_injective encodeScore_injective).eq_iff]
  have hcount := congrArg UInt32.toNat hkept.count
  rw [UInt32.toNat_ofNat'] at hcount
  simp only [hstored]
  rw [zrangeOrdered_iff hlive ht hdual (hnum trivial), hcount]
  refine and_congr ?_ Iff.rfl
  omega

theorem zrange_ordered_zsetHistory :
    ZRangeOrdered ((World.opened ∅ (stillClock 7 5)).after zsetHistory) Key.k := by
  have hlive : (((World.opened ∅ (stillClock 7 5)).after zsetHistory).liveMeta Key.k.1).map
      (fun m => (m.typeId, m.version)) = some (TYPE_ZSET, 5) := by decide +kernel
  obtain ⟨m, hm, he⟩ := Option.map_eq_some_iff.mp hlive
  obtain ⟨ht, hv⟩ := Prod.mk.inj he
  refine (zrange_ordered_iff (stillClock 7 5) zsetHistory steps_zsetHistory Key.k m hm ht).mpr
    ⟨card_zsetHistory m.version, fun x y hx hy => ?_⟩
  -- No member has the score `0.0`.
  have hnone : ∀ item ∈ prefixScan ((World.opened ∅ (stillClock 7 5)).after zsetHistory).disk
      (subkeyPrefix Key.k.1 5), item.2 ≠ encodeScore F64.POS_ZERO := by decide +kernel
  rw [hv] at hy
  exact absurd rfl (hnone (subkey Key.k.1 5 y, _) (mem_prefixScan.mpr ⟨hy, List.prefix_append _ _⟩))

/-- The member `b` at `-0.0` and the member `a` at `0.0`. -/
def zerosHistory : List Event :=
  [.run (.keyed Key.k (.zadd [(F64.NEG_ZERO, [98]), (F64.POS_ZERO, [97])]))]

theorem zrange_of_zeros_unordered : Steps NumericStep (World.opened ∅ (stillClock 7 5)) zerosHistory ∧
    (((World.opened ∅ (stillClock 7 5)).after zerosHistory).liveMeta Key.k.1).map Meta.typeId =
      some TYPE_ZSET ∧
    ¬ ZRangeOrdered ((World.opened ∅ (stillClock 7 5)).after zerosHistory) Key.k := by
  refine ⟨⟨numericStep_of_check (by simp only [Op.numeric]; decide +kernel) (by decide +kernel), trivial⟩,
    by decide +kernel, ?_⟩
  rintro ⟨all, hall, -, -, hordered⟩
  have hrange : ((Op.keyed Key.k (.zrange 0 (-1))).run ((World.opened ∅ (stillClock 7 5)).after
      zerosHistory)).1 = .ok (.scored [([98], F64.NEG_ZERO), ([97], F64.POS_ZERO)]) := by decide +kernel
  rw [hrange] at hall
  simp only [Except.ok.injEq, Reply.scored.injEq] at hall
  subst hall
  rcases (List.pairwise_cons.mp hordered).1 _ (List.mem_singleton_self _) with hlt | ⟨-, hlt⟩
  · exact absurd hlt (by decide)
  · exact absurd hlt (by decide)

end GameStore
