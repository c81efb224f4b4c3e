import GameStore.Queries

/-!
# Rank ranges

`normalize_range` clamps in `i64`, and `lrange` and `zrange` then work with unsigned
offsets. Over every pair of indexes the outcome is the slice that the signed ranks describe
in the integers, and no step wraps around.
-/

namespace GameStore

open Lib Std

/-! ## Ranks -/

/-- The rank an index stands for among `n` elements; a negative one counts from the end. -/
def rankOf (index : Int64) (n : ℕ) : ℤ := if 0 ≤ index.toInt then index.toInt else index.toInt + n

/-- The ranks from `start` to `stop`. -/
def Selects (start stop : Int64) (n r : ℕ) : Prop :=
  max 0 (rankOf start n) ≤ (r : ℤ) ∧ (r : ℤ) ≤ min ((n : ℤ) - 1) (rankOf stop n)

instance (start stop : Int64) (n r : ℕ) : Decidable (Selects start stop n r) :=
  inferInstanceAs (Decidable (_ ∧ _))

/-- The elements with these ranks, in order. -/
def selected {α : Type} (start stop : Int64) (l : List α) : List α :=
  (l.zipIdx.filter fun p => Selects start stop l.length p.2).map Prod.fst

/-! ## `normalize_range` -/

section Normalize

variable {start stop : Int64} {n : ℕ}

theorem toInt_len (hn : n < 2 ^ 63) : (Int64.ofNat n).toInt = n := Int64.toInt_ofNat_of_lt hn

/-- A negative index and the length add up without wrapping. -/
theorem toInt_add_len (hn : n < 2 ^ 63) {index : Int64} (h : index < 0) :
    (index + Int64.ofNat n).toInt = index.toInt + n := by
  have hlow := index.le_toInt
  rw [Int64.lt_iff_toInt_lt, Int64.toInt_zero] at h
  rw [Int64.toInt_add, toInt_len hn]
  apply Int.bmod_eq_of_le
  · omega
  · omega

theorem toInt_len_sub_one (hn : n < 2 ^ 63) (hpos : 0 < n) : (Int64.ofNat n - 1).toInt = n - 1 := by
  rw [Int64.toInt_sub, toInt_len hn, Int64.toInt_one]
  apply Int.bmod_eq_of_le
  · omega
  · omega

theorem toInt_signed (hn : n < 2 ^ 63) (index : Int64) :
    (if index < 0 then index + Int64.ofNat n else index).toInt = rankOf index n := by
  by_cases h : index < 0
  · rw [if_pos h, toInt_add_len hn h, rankOf, if_neg]
    rw [Int64.lt_iff_toInt_lt, Int64.toInt_zero] at h
    omega
  · rw [if_neg h, rankOf, if_pos]
    rw [Int64.lt_iff_toInt_lt, Int64.toInt_zero] at h
    omega

theorem toInt_max (a b : Int64) : (max a b).toInt = max a.toInt b.toInt := by
  change (if a ≤ b then b else a).toInt = _
  split
  · rw [max_eq_right (Int64.le_iff_toInt_le.mp ‹_›)]
  · rename_i h
    rw [Int64.le_iff_toInt_le] at h
    rw [max_eq_left (by omega)]

theorem toInt_min (a b : Int64) : (min a b).toInt = min a.toInt b.toInt := by
  change (if a ≤ b then a else b).toInt = _
  split
  · rw [min_eq_left (Int64.le_iff_toInt_le.mp ‹_›)]
  · rename_i h
    rw [Int64.le_iff_toInt_le] at h
    rw [min_eq_right (by omega)]

/-- The cast to `usize` of what is not negative. -/
theorem toNat_toUInt64 {a : Int64} (h : 0 ≤ a.toInt) : (a.toUInt64.toNat : ℤ) = a.toInt := by
  have hle : (0 : Int64) ≤ a := by
    rw [Int64.le_iff_toInt_le, Int64.toInt_zero]
    exact h
  rw [Int64.toNat_toUInt64_of_le hle, Int64.toNatClampNeg]
  omega

theorem normalizeRange_spec (start stop : Int64) (hn : n < 2 ^ 63) :
    (normalizeRange start stop (Int64.ofNat n) = none ∧ ∀ r, ¬ Selects start stop n r) ∨
    ∃ lo hi, normalizeRange start stop (Int64.ofNat n) = some (lo, hi) ∧ lo ≤ hi ∧ hi < n ∧
      ∀ r, Selects start stop n r ↔ lo ≤ r ∧ r ≤ hi := by
  by_cases hzero : n = 0
  · subst hzero
    refine .inl ⟨rfl, fun r h => ?_⟩
    have := h.2
    have := h.1
    omega
  have hlen : ¬ Int64.ofNat n ≤ 0 := by
    rw [Int64.le_iff_toInt_le, toInt_len hn, Int64.toInt_zero]
    omega
  have hstart := toInt_signed hn start
  have hstop := toInt_signed hn stop
  have hlast := toInt_len_sub_one hn (Nat.pos_of_ne_zero hzero)
  rw [normalizeRange, if_neg hlen]
  dsimp only
  set lo := max (if start < 0 then start + Int64.ofNat n else start) 0 with hlo
  set hi := min (if stop < 0 then stop + Int64.ofNat n else stop) (Int64.ofNat n - 1) with hhi
  have hlo' : lo.toInt = max 0 (rankOf start n) := by
    rw [hlo, toInt_max, hstart, Int64.toInt_zero, max_comm]
  have hhi' : hi.toInt = min ((n : ℤ) - 1) (rankOf stop n) := by
    rw [hhi, toInt_min, hstop, hlast, min_comm]
  by_cases hlt : hi < lo
  · rw [if_pos hlt]
    rw [Int64.lt_iff_toInt_lt, hlo', hhi'] at hlt
    refine .inl ⟨rfl, fun r h => ?_⟩
    have := h.1.trans h.2
    omega
  · rw [if_neg hlt]
    rw [Int64.lt_iff_toInt_lt] at hlt
    have hlocast := toNat_toUInt64 (a := lo) (by omega)
    have hhicast := toNat_toUInt64 (a := hi) (by omega)
    refine .inr ⟨_, _, rfl, by omega, by omega, fun r => ?_⟩
    rw [Selects, ← hlo', ← hhi', ← hlocast, ← hhicast, Nat.cast_le, Nat.cast_le]

end Normalize

/-! ## Slices -/

section Slices

variable {α : Type}

theorem selected_eq_nil {start stop : Int64} {l : List α} (h : ∀ r, ¬ Selects start stop l.length r) :
    selected start stop l = [] := by
  simp [selected, h]

theorem selected_eq {start stop : Int64} {l : List α} {lo hi : ℕ}
    (h : ∀ r, Selects start stop l.length r ↔ lo ≤ r ∧ r ≤ hi) :
    selected start stop l = (l.zipIdx.filter fun p => lo ≤ p.2 ∧ p.2 ≤ hi).map Prod.fst := by
  simp only [selected, h]

theorem zrangeLoop_slice {plen lo hi : ℕ} {items : List (Bytes × Bytes)} (rank : ℕ)
    (hsplit : ∀ item ∈ items, splitSuffix plen item.1 = .ok (scoredMember (item.1.drop plen))) :
    zrangeLoop plen lo hi rank items =
      .ok (((items.zipIdx rank).filter fun p => lo ≤ p.2 ∧ p.2 ≤ hi).map
        fun p => scoredMember (p.1.1.drop plen)) := by
  induction items generalizing rank with
  | nil => rfl
  | cons item items ih =>
    have hrest := ih (rank + 1) fun i hi => hsplit i (List.mem_cons_of_mem _ hi)
    rw [zrangeLoop, List.zipIdx_cons]
    by_cases hlo : rank < lo
    · rw [if_pos hlo, hrest, List.filter_cons_of_neg]
      simp only [decide_eq_true_eq]
      omega
    · rw [if_neg hlo]
      by_cases hhi : hi < rank
      · -- The ranks only grow from here on.
        rw [if_pos hhi, List.filter_eq_nil_iff.mpr]
        · rfl
        · intro p hp
          have hle : rank ≤ p.2 := by
            rw [← List.zipIdx_cons] at hp
            exact (List.le_snd_of_mem_zipIdx hp)
          simp only [decide_eq_true_eq]
          omega
      · rw [if_neg hhi, hsplit item List.mem_cons_self, hrest, List.filter_cons_of_pos]
        · rfl
        · simp only [decide_eq_true_eq]
          omega

theorem filter_range' {lo hi n : ℕ} (hle : lo ≤ hi) (hlt : hi < n) :
    (List.range' 0 n).filter (fun o => lo ≤ o ∧ o ≤ hi) = List.range' lo (hi - lo + 1) := by
  have hsplit : List.range' 0 n =
      List.range' 0 lo ++ List.range' lo (hi - lo + 1) ++ List.range' (hi + 1) (n - (hi + 1)) := by
    have hfirst : List.range' 0 lo ++ List.range' lo (hi - lo + 1) = List.range' 0 (hi + 1) := by
      have := List.range'_append_1 (s := 0) (m := lo) (n := hi - lo + 1)
      rwa [Nat.zero_add, show lo + (hi - lo + 1) = hi + 1 by omega] at this
    have := List.range'_append_1 (s := 0) (m := hi + 1) (n := n - (hi + 1))
    rwa [Nat.zero_add, show hi + 1 + (n - (hi + 1)) = n by omega, ← hfirst, eq_comm] at this
  have hbefore : (List.range' 0 lo).filter (fun o => lo ≤ o ∧ o ≤ hi) = [] := by
    refine List.filter_eq_nil_iff.mpr fun o ho => ?_
    rw [List.mem_range'_1] at ho
    simp only [decide_eq_true_eq]
    omega
  have hinside : (List.range' lo (hi - lo + 1)).filter (fun o => lo ≤ o ∧ o ≤ hi) =
      List.range' lo (hi - lo + 1) := by
    refine List.filter_eq_self.mpr fun o ho => ?_
    rw [List.mem_range'_1] at ho
    simp only [decide_eq_true_eq]
    omega
  have hafter : (List.range' (hi + 1) (n - (hi + 1))).filter (fun o => lo ≤ o ∧ o ≤ hi) = [] := by
    refine List.filter_eq_nil_iff.mpr fun o ho => ?_
    rw [List.mem_range'_1] at ho
    simp only [decide_eq_true_eq]
    omega
  rw [hsplit, List.filter_append, List.filter_append, hbefore, hinside, hafter, List.nil_append,
    List.append_nil]

theorem zipIdx_eq_map_getD (l : List α) (default : α) :
    l.zipIdx = (List.range' 0 l.length).map fun o => (l.getD o default, o) := by
  apply List.ext_getElem
  · simp
  · intro i hi hi'
    rw [List.length_zipIdx] at hi
    simp [List.getElem?_eq_getElem hi]

theorem map_getD_range' (l : List α) (default : α) {lo hi : ℕ} (hle : lo ≤ hi) (hlt : hi < l.length) :
    (List.range' lo (hi - lo + 1)).map (fun o => l.getD o default) =
      (l.zipIdx.filter fun p => lo ≤ p.2 ∧ p.2 ≤ hi).map Prod.fst := by
  rw [zipIdx_eq_map_getD l default, List.filter_map, List.map_map, ← filter_range' hle hlt]
  rfl

end Slices

/-! ## Lists and sorted sets with given elements -/

/-- The records from `head` to `tail` are the elements `l`; what else there is under the
version is left open. -/
structure Listed (d : Disk) (k : Bytes) (v head tail : UInt64) (l : List Bytes) : Prop where
  width : tail.toNat = head.toNat + l.length
  element : ∀ offset < l.length, d[elementKey k v (head + UInt64.ofNat offset)]? = l[offset]?

/-- The score index under the version lists `entries`, in this order. -/
def Indexes (d : Disk) (k : Bytes) (v : UInt64) (entries : List (Bytes × F64)) : Prop :=
  (prefixScan d (zscorePrefix k v)).map Prod.fst = entries.map fun e => zscoreKey k v e.2 e.1

/-- Every step of a rank range on `n` elements is exact: the signed sums and differences, the
offsets and their number, and the indexes from `head` on. -/
structure NoOverflow (start stop : Int64) (n : ℕ) (head : UInt64) : Prop where
  len : (Int64.ofNat n).toInt = n
  fromStart : start < 0 → (start + Int64.ofNat n).toInt = start.toInt + n
  fromStop : stop < 0 → (stop + Int64.ofNat n).toInt = stop.toInt + n
  last : 0 < n → (Int64.ofNat n - 1).toInt = n - 1
  offsets : ∀ lo hi, normalizeRange start stop (Int64.ofNat n) = some (lo, hi) →
    (lo : ℤ) = max 0 (rankOf start n) ∧ (hi : ℤ) = min ((n : ℤ) - 1) (rankOf stop n) ∧ lo ≤ hi ∧
      hi - lo + 1 < 2 ^ 64 ∧ ∀ offset ≤ hi, (head + UInt64.ofNat offset).toNat = head.toNat + offset

theorem toNat_add_offset {head : UInt64} {n o : ℕ} (h : head.toNat + n < 2 ^ 64) (ho : o ≤ n) :
    (head + UInt64.ofNat o).toNat = head.toNat + o := by
  rw [UInt64.toNat_add, UInt64.toNat_ofNat', Nat.mod_eq_of_lt (by omega), Nat.mod_eq_of_lt (by omega)]

theorem noOverflow (start stop : Int64) {n : ℕ} (hn : n < 2 ^ 63) {head : UInt64}
    (hhead : head.toNat + n < 2 ^ 64) : NoOverflow start stop n head where
  len := toInt_len hn
  fromStart := toInt_add_len hn
  fromStop := toInt_add_len hn
  last := toInt_len_sub_one hn
  offsets lo hi h := by
    rcases normalizeRange_spec start stop hn with ⟨hnone, -⟩ | ⟨lo', hi', hsome, hle, hlt, hsel⟩
    · rw [hnone] at h
      cases h
    · rw [hsome] at h
      simp only [Option.some.injEq, Prod.mk.injEq] at h
      obtain ⟨rfl, rfl⟩ := h
      have hlo := (hsel lo').mpr ⟨le_rfl, hle⟩
      have hhi := (hsel hi').mpr ⟨hle, le_rfl⟩
      -- The ends of the range are selected, and the ranks next to them are not.
      have hbelow : ¬ Selects start stop n (lo' - 1) ∨ lo' = 0 := by
        rw [hsel]
        omega
      have habove : ¬ Selects start stop n (hi' + 1) := by
        rw [hsel]
        omega
      simp only [Selects] at hlo hhi hbelow habove
      refine ⟨?_, ?_, hle, by omega, fun o ho => toNat_add_offset hhead (by omega)⟩
      · omega
      · omega

section Ranges

variable {k : Bytes} {w : World} {m : Meta}

theorem run_lrange (h : w.liveMeta k = some m) (ht : m.typeId = TYPE_LIST) {head tail : UInt64}
    (hb : m.listBounds = some (head, tail)) {l : List Bytes} (hl : Listed w.disk k m.version head tail l)
    (hlen : l.length < 2 ^ 63) (start stop : Int64) :
    ((lrange k start stop).run exec w).1 = .ok (selected start stop l) := by
  obtain ⟨w', hload, hst, -⟩ := run_loadTyped_live h
  rw [ht] at hload
  have hd : w'.disk = w.disk := by rw [hst]
  have hbound := tail.toNat_lt
  have hle : head ≤ tail := UInt64.le_iff_toNat_le.mpr (by rw [hl.width]; omega)
  have hwidth : tail.toNat - head.toNat = l.length := by rw [hl.width]; omega
  rw [lrange, Prog.run_bind_ok _ hload]
  dsimp only
  rw [hb]
  dsimp only
  rw [listLen_eq hle, hwidth]
  rcases normalizeRange_spec start stop hlen with ⟨hnone, hsel⟩ | ⟨lo, hi, hsome, hlohi, hlt, hsel⟩
  · rw [hnone, selected_eq_nil hsel]
    rfl
  · rw [hsome]
    dsimp only
    rw [run_readElements head (fun o => l.getD o []), map_getD_range' l [] hlohi hlt, ← selected_eq hsel]
    · rfl
    · intro o ho
      rw [List.mem_range'_1] at ho
      rw [hd, hl.element o (by omega), List.getD_eq_getElem l [] (by omega)]
      exact List.getElem?_eq_getElem (by omega)

theorem Indexes.items_eq {d : Disk} {v : UInt64} {entries : List (Bytes × F64)} (h : Indexes d k v entries) :
    (prefixScan d (zscorePrefix k v)).map (fun item => scoredMember (item.1.drop (zscorePrefix k v).length)) =
      entries := by
  have hmap := congrArg (List.map fun raw => scoredMember (raw.drop (zscorePrefix k v).length)) h
  rw [List.map_map, List.map_map] at hmap
  refine hmap.trans ((List.map_congr_left fun e _ => ?_).trans (List.map_id entries))
  rw [Function.comp_apply, drop_zscoreKey, scoredMember_encodeScore]
  rfl

theorem Indexes.splitSuffix {d : Disk} {v : UInt64} {entries : List (Bytes × F64)} (h : Indexes d k v entries)
    {item : Bytes × Bytes} (hitem : item ∈ prefixScan d (zscorePrefix k v)) :
    splitSuffix (zscorePrefix k v).length item.1 =
      .ok (scoredMember (item.1.drop (zscorePrefix k v).length)) := by
  have hmem : item.1 ∈ entries.map fun e => zscoreKey k v e.2 e.1 := by
    rw [← h]
    exact List.mem_map_of_mem hitem
  obtain ⟨e, -, he⟩ := List.mem_map.mp hmem
  rw [← he, splitSuffix_zscoreKey, drop_zscoreKey, scoredMember_encodeScore]

/-- The ranks are those of the stored count, be it the number of entries or not. -/
theorem run_zrange_counted (h : w.liveMeta k = some m) (ht : m.typeId = TYPE_ZSET) {entries : List (Bytes × F64)}
    (hindex : Indexes w.disk k m.version entries) (start stop : Int64) :
    ((zrange k start stop).run exec w).1 =
      .ok ((entries.zipIdx.filter fun p => Selects start stop m.fieldCount.toNat p.2).map Prod.fst) := by
  obtain ⟨w', hload, hst, -⟩ := run_loadTyped_live h
  rw [ht] at hload
  have hd : w'.disk = w.disk := by rw [hst]
  have hlen : m.fieldCount.toNat < 2 ^ 63 := by
    have := m.fieldCount.toNat_lt
    omega
  have hscan : exec (.scanPrefix (zscorePrefix k m.version)) w' =
      (prefixScan w.disk (zscorePrefix k m.version), w') := by rw [← hd]; rfl
  rw [zrange, Prog.run_bind_ok _ hload]
  dsimp only
  rcases normalizeRange_spec start stop hlen with ⟨hnone, hsel⟩ | ⟨lo, hi, hsome, hlohi, hlt, hsel⟩
  · rw [hnone]
    simp only [hsel, decide_false, List.filter_false, List.map_nil]
    rfl
  · rw [hsome]
    dsimp only
    rw [Prog.perform_bind, Prog.run_call, hscan, zrangeLoop_slice 0 fun item => hindex.splitSuffix]
    simp only [hsel]
    rw [← hindex.items_eq, List.zipIdx_map, List.filter_map, List.map_map]
    rfl

theorem run_zrange (h : w.liveMeta k = some m) (ht : m.typeId = TYPE_ZSET) {entries : List (Bytes × F64)}
    (hindex : Indexes w.disk k m.version entries) (hcount : m.fieldCount.toNat = entries.length)
    (start stop : Int64) :
    ((zrange k start stop).run exec w).1 = .ok (selected start stop entries) := by
  rw [run_zrange_counted h ht hindex, hcount]
  rfl

/-- For every live list of fewer than `2^63` elements, whatever records of an earlier life
lie beside them, and every live sorted set whose count is the number of its index records,
and for every two indexes: the elements with the selected ranks are returned, in order, and
no arithmetic on the way wraps. -/
theorem rank_ranges_exact (w : World) (key : Key) (m : Meta) (hlive : w.liveMeta key.1 = some m)
    (start stop : Int64) :
    (∀ head tail l, m.typeId = TYPE_LIST → m.listBounds = some (head, tail) →
      Listed w.disk key.1 m.version head tail l → l.length < 2 ^ 63 →
      ((Op.keyed key (.lrange start stop)).run w).1 = .ok (.values (selected start stop l)) ∧
        NoOverflow start stop l.length head) ∧
    (∀ entries, m.typeId = TYPE_ZSET → Indexes w.disk key.1 m.version entries →
      m.fieldCount.toNat = entries.length →
      ((Op.keyed key (.zrange start stop)).run w).1 = .ok (.scored (selected start stop entries)) ∧
        NoOverflow start stop entries.length 0) := by
  constructor
  · intro head tail l ht hb hl hlen
    have hbound := tail.toNat_lt
    rw [hl.width] at hbound
    refine ⟨?_, noOverflow start stop hlen hbound⟩
    rw [Op.run, Op.prog, KeyOp.prog, Prog.run_map, run_lrange hlive ht hb hl hlen]
    rfl
  · intro entries ht hindex hcount
    have hlt := m.fieldCount.toNat_lt
    refine ⟨?_, noOverflow start stop (by omega) (by rw [UInt64.toNat_zero]; omega)⟩
    rw [Op.run, Op.prog, KeyOp.prog, Prog.run_map, run_zrange hlive ht hindex hcount]
    rfl

end Ranges

/-- A list of five elements is deleted, and after a restart one of four is built under the
same version; the fifth record is still on the disk. -/
def reusedList : World := (World.opened ∅ (stillClock 7 5)).after
  [.run (.keyed Key.k (.push [[120], [120], [120], [120], [120]] false)), .run (.keyed Key.k .del),
    .restart (stillClock 7 5), .run (.keyed Key.k (.push [[97], [98], [99], [100]] false))]

/-- Three members, the last ones with equal scores. -/
def threeScores : World := (World.opened ∅ (stillClock 7 5)).after
  [.run (.keyed Key.k (.zadd [(⟨0⟩, [121]), (⟨0xC000000000000000⟩, [122]), (⟨0⟩, [120])]))]

/-- The middle of the list, and the members from the second on. -/
theorem rank_ranges_exact_slices :
    ((Op.keyed Key.k (.lrange 1 (-2))).run reusedList).1 = .ok (.values [[98], [99]]) ∧
    reusedList.disk[elementKey Key.k.1 5 (LIST_INITIAL_INDEX + 4)]? = some [120] ∧
    ((Op.keyed Key.k (.zrange (-2) Int64.maxValue)).run threeScores).1 =
      .ok (.scored [([120], ⟨0⟩), ([121], ⟨0⟩)]) := by
  have hlist : (reusedList.liveMeta Key.k.1).map (fun m => (m.typeId, m.version, m.listBounds)) =
      some (TYPE_LIST, 5, some (LIST_INITIAL_INDEX, LIST_INITIAL_INDEX + 4)) := by decide +kernel
  have hzset : (threeScores.liveMeta Key.k.1).map (fun m => (m.typeId, m.version, m.fieldCount)) =
      some (TYPE_ZSET, 5, 3) := by decide +kernel
  obtain ⟨m, hm, hmeta⟩ := Option.map_eq_some_iff.mp hlist
  obtain ⟨m', hm', hmeta'⟩ := Option.map_eq_some_iff.mp hzset
  simp only [Prod.mk.injEq] at hmeta hmeta'
  obtain ⟨ht, hv, hb⟩ := hmeta
  obtain ⟨ht', hv', hcount⟩ := hmeta'
  have hl : Listed reusedList.disk Key.k.1 m.version LIST_INITIAL_INDEX (LIST_INITIAL_INDEX + 4)
      [[97], [98], [99], [100]] := by
    rw [hv]
    exact ⟨by decide +kernel, by decide +kernel⟩
  have hindex : Indexes threeScores.disk Key.k.1 m'.version
      [([122], ⟨0xC000000000000000⟩), ([120], ⟨0⟩), ([121], ⟨0⟩)] := by
    rw [hv', Indexes]
    decide +kernel
  have hslice := ((rank_ranges_exact reusedList Key.k m hm 1 (-2)).1 _ _ _ ht hb hl (by decide)).1
  have hscores := ((rank_ranges_exact threeScores Key.k m' hm' (-2) Int64.maxValue).2 _ ht' hindex
    (by rw [hcount]; rfl)).1
  exact ⟨hslice.trans (by decide +kernel), by decide +kernel, hscores.trans (by decide +kernel)⟩

end GameStore
