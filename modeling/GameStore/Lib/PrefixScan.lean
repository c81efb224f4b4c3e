import Mathlib

/-!
# Ordered maps with list keys, scanned by prefix

Keys are lists compared lexicographically, so the keys with a given prefix are
consecutive. A scan that seeks to the prefix and stops at the first key
without it therefore meets exactly the records with that prefix.
-/

namespace GameStore.Lib

open Std

variable {κ ν : Type} [Ord κ] [TransOrd κ] [LawfulEqOrd κ] [BEq κ] [LawfulBEq κ]

/-- Seek to `pre`, then read on while the key starts with `pre`. -/
def prefixScan (m : ExtTreeMap (List κ) ν) (pre : List κ) : List (List κ × ν) :=
  (m.toList.dropWhile fun r => (compare r.1 pre).isLT).takeWhile fun r => pre.isPrefixOf r.1

omit [TransOrd κ] [BEq κ] [LawfulBEq κ] in
theorem not_lt_of_prefix {pre k : List κ} (h : pre <+: k) : compare k pre ≠ .lt := by
  induction pre generalizing k with
  | nil => cases k <;> simp
  | cons a pre ih =>
    obtain ⟨t, rfl⟩ := h
    rw [List.cons_append, List.compare_cons_cons, compare_self (a := a)]
    exact ih ⟨t, rfl⟩

omit [TransOrd κ] [BEq κ] [LawfulBEq κ] in
theorem compare_append_left (pre a b : List κ) : compare (pre ++ a) (pre ++ b) = compare a b := by
  induction pre with
  | nil => rfl
  | cons x pre ih =>
    rw [List.cons_append, List.cons_append, List.compare_cons_cons, compare_self, ih]
    rfl

omit [TransOrd κ] [LawfulEqOrd κ] [BEq κ] [LawfulBEq κ] in
/-- Heads of one length are compared first. -/
theorem compare_append {p q : List κ} (h : p.length = q.length) (x y : List κ) :
    compare (p ++ x) (q ++ y) = (compare p q).then (compare x y) := by
  induction p generalizing q with
  | nil =>
    rw [List.length_nil, eq_comm, List.length_eq_zero_iff] at h
    rw [h, List.nil_append, List.nil_append, List.compare_nil_nil]
    rfl
  | cons a p ih =>
    cases q with
    | nil => cases h
    | cons b q =>
      rw [List.cons_append, List.cons_append, List.compare_cons_cons, List.compare_cons_cons,
        ih (Nat.succ.inj h), Ordering.then_assoc]

omit [TransOrd κ] [BEq κ] [LawfulBEq κ] in
/-- Between a prefix and a key that has it there are only keys that have it. -/
theorem prefix_of_between {pre j k : List κ} (hj : compare j pre ≠ .lt) (hjk : compare j k = .lt)
    (hk : pre <+: k) : pre <+: j := by
  induction pre generalizing j k with
  | nil => exact List.nil_prefix
  | cons a pre ih =>
    obtain ⟨t, rfl⟩ := hk
    cases j with
    | nil => exact absurd List.compare_nil_cons hj
    | cons b j =>
      rw [List.cons_append] at hjk
      rw [List.compare_cons_cons] at hj hjk
      cases hba : compare b a with
      | lt => rw [hba] at hj; exact absurd rfl hj
      | gt => rw [hba] at hjk; cases hjk
      | eq =>
        rw [hba] at hj hjk
        cases compare_eq_iff_eq.mp hba
        exact List.cons_prefix_cons.mpr ⟨rfl, ih hj hjk ⟨t, rfl⟩⟩

omit [TransOrd κ] in
theorem takeWhile_sorted (pre : List κ) (l : List (List κ × ν))
    (hs : l.Pairwise fun a b => compare a.1 b.1 = .lt)
    (hge : ∀ r ∈ l, compare r.1 pre ≠ .lt) :
    l.takeWhile (fun r => pre.isPrefixOf r.1) = l.filter fun r => pre.isPrefixOf r.1 := by
  induction l with
  | nil => rfl
  | cons r l ih =>
    rw [List.pairwise_cons] at hs
    rw [List.takeWhile_cons, List.filter_cons]
    split
    · rw [ih hs.2 fun q hq => hge q (List.mem_cons_of_mem _ hq)]
    · rename_i hr
      symm
      apply List.filter_eq_nil_iff.mpr
      intro q hq hpre
      apply hr
      rw [List.isPrefixOf_iff_prefix] at hpre ⊢
      exact prefix_of_between (hge r List.mem_cons_self) (hs.1 q hq) hpre

theorem dropWhile_sorted (pre : List κ) (l : List (List κ × ν))
    (hs : l.Pairwise fun a b => compare a.1 b.1 = .lt) :
    (l.dropWhile fun r => (compare r.1 pre).isLT).takeWhile (fun r => pre.isPrefixOf r.1) =
      l.filter fun r => pre.isPrefixOf r.1 := by
  induction l with
  | nil => rfl
  | cons r l ih =>
    rw [List.dropWhile_cons]
    split
    · rename_i hlt
      rw [ih (List.pairwise_cons.mp hs).2, List.filter_cons, if_neg]
      intro hpre
      exact not_lt_of_prefix (List.isPrefixOf_iff_prefix.mp hpre) (by simpa using hlt)
    · rename_i hge
      apply takeWhile_sorted pre _ hs
      have hr : compare r.1 pre ≠ .lt := by simpa using hge
      intro q hq hlt
      rcases List.mem_cons.mp hq with rfl | hq
      · exact hr hlt
      · exact hr (TransCmp.lt_trans ((List.pairwise_cons.mp hs).1 q hq) hlt)

/-- The scan yields the records with the prefix, in key order. -/
theorem prefixScan_eq_filter (m : ExtTreeMap (List κ) ν) (pre : List κ) :
    prefixScan m pre = m.toList.filter fun r => pre.isPrefixOf r.1 :=
  dropWhile_sorted pre _ ExtTreeMap.ordered_keys_toList

theorem mem_prefixScan {m : ExtTreeMap (List κ) ν} {pre k : List κ} {v : ν} :
    (k, v) ∈ prefixScan m pre ↔ m[k]? = some v ∧ pre <+: k := by
  rw [prefixScan_eq_filter, List.mem_filter, ExtTreeMap.mem_toList_iff_getElem?_eq_some,
    List.isPrefixOf_iff_prefix]

theorem prefixScan_sorted (m : ExtTreeMap (List κ) ν) (pre : List κ) :
    (prefixScan m pre).Pairwise fun a b => compare a.1 b.1 = .lt := by
  rw [prefixScan_eq_filter]
  exact ExtTreeMap.ordered_keys_toList.filter _

theorem prefixScan_keys_nodup (m : ExtTreeMap (List κ) ν) (pre : List κ) :
    ((prefixScan m pre).map Prod.fst).Nodup := by
  rw [List.Nodup, List.pairwise_map]
  refine (prefixScan_sorted m pre).imp ?_
  intro a b hab he
  rw [he, compare_self] at hab
  cases hab

/-- The scan of a map that has some of the records with the prefix. -/
theorem prefixScan_kept {m m' : ExtTreeMap (List κ) ν} {pre : List κ} {P : List κ → Bool}
    (h : ∀ k, pre <+: k → m'[k]? = if P k then m[k]? else none) :
    prefixScan m' pre = (prefixScan m pre).filter fun r => P r.1 := by
  have : Antisymm fun a b : List κ × ν => compare a.1 b.1 = .lt :=
    ⟨fun a b hab hba => by rw [OrientedCmp.gt_of_lt hab] at hba; cases hba⟩
  have : Irrefl fun a b : List κ × ν => compare a.1 b.1 = .lt :=
    ⟨fun a ha => by rw [compare_self] at ha; cases ha⟩
  apply (prefixScan_sorted m' pre).eq_of_mem_iff ((prefixScan_sorted m pre).filter _)
  rintro ⟨k, v⟩
  rw [List.mem_filter, mem_prefixScan, mem_prefixScan]
  constructor
  · rintro ⟨hk, hp⟩
    rw [h k hp] at hk
    split at hk
    · exact ⟨⟨hk, hp⟩, ‹_›⟩
    · cases hk
  · rintro ⟨⟨hk, hp⟩, hP⟩
    exact ⟨(h k hp).trans ((if_pos hP).trans hk), hp⟩

/-- Maps that agree on the keys with a prefix have the same scan of it. -/
theorem prefixScan_congr {m m' : ExtTreeMap (List κ) ν} {pre : List κ}
    (h : ∀ k, pre <+: k → m[k]? = m'[k]?) : prefixScan m pre = prefixScan m' pre := by
  rw [prefixScan_kept (P := fun _ => true) fun k hk => (h k hk).trans (if_pos rfl).symm, List.filter_true]

omit [LawfulEqOrd κ] [LawfulBEq κ] in
theorem length_prefixScan_le (m : ExtTreeMap (List κ) ν) (pre : List κ) :
    (prefixScan m pre).length ≤ m.toList.length :=
  (((List.takeWhile_sublist _).trans (List.dropWhile_sublist _)).length_le)

end GameStore.Lib
