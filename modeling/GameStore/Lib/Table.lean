import GameStore.Lib.Assoc

/-!
# Tables

Finite maps in key order, changed by lists of pairs and of keys. Two tables with
the same entries are equal, so what a list does to a table is said by lookup; how
many entries there are is the number of keys.
-/

namespace GameStore.Lib

open Std

variable {κ ν : Type} [Ord κ] [TransOrd κ] [LawfulEqOrd κ] [BEq κ] [LawfulBEq κ] [DecidableEq κ]

/-- The pairs are put one after the other, so of a repeated key the last one stays. -/
def insertAll (m : ExtTreeMap κ ν) (l : List (κ × ν)) : ExtTreeMap κ ν :=
  l.foldl (fun m p => m.insert p.1 p.2) m

def eraseAll (m : ExtTreeMap κ ν) (l : List κ) : ExtTreeMap κ ν := l.foldl (fun m k => m.erase k) m

omit [Ord κ] [TransOrd κ] [LawfulEqOrd κ] [DecidableEq κ] in
theorem lookup_map_values {γ : Type} (g : κ → ν → γ) (l : List (κ × ν)) (k : κ) :
    (l.map fun p => (p.1, g p.1 p.2)).lookup k = (l.lookup k).map (g k) := by
  induction l with
  | nil => rfl
  | cons p l ih =>
    rw [List.map_cons, List.lookup_cons, List.lookup_cons, ih]
    cases hp : k == p.1 with
    | true =>
      rw [← LawfulBEq.eq_of_beq hp]
      rfl
    | false => rfl

theorem getElem?_insertAll (m : ExtTreeMap κ ν) (l : List (κ × ν)) (k : κ) :
    (insertAll m l)[k]? = (l.reverse.lookup k).or m[k]? := by
  induction l using List.reverseRecOn with
  | nil => rfl
  | append_singleton l p ih =>
    have hsplit : insertAll m (l ++ [p]) = (insertAll m l).insert p.1 p.2 := List.foldl_append
    rw [hsplit, ExtTreeMap.getElem?_insert, lookup_reverse_concat, ih]
    by_cases h : p.1 = k
    · subst h
      simp
    · rw [if_neg (fun he => h (Std.compare_eq_iff_eq.mp he)), if_neg (Ne.symm h)]

omit [DecidableEq κ] in
theorem getElem?_eraseAll (m : ExtTreeMap κ ν) (l : List κ) (k : κ) :
    (eraseAll m l)[k]? = if k ∈ l then none else m[k]? := by
  induction l using List.reverseRecOn with
  | nil => rfl
  | append_singleton l k' ih =>
    have hsplit : eraseAll m (l ++ [k']) = (eraseAll m l).erase k' := List.foldl_append
    rw [hsplit, ExtTreeMap.getElem?_erase, ih]
    by_cases h : k' = k
    · subst h
      simp
    · rw [if_neg (fun he => h (Std.compare_eq_iff_eq.mp he))]
      simp [Ne.symm h]

omit [DecidableEq κ] in
@[simp] theorem eraseAll_empty (l : List κ) : eraseAll (∅ : ExtTreeMap κ ν) l = ∅ := by
  apply ExtTreeMap.ext_getElem?
  intro k
  rw [getElem?_eraseAll]
  simp

/-! ## How many entries -/

def keySet (m : ExtTreeMap κ ν) : Finset κ := m.keys.toFinset

omit [BEq κ] [LawfulBEq κ] in
theorem mem_keySet {m : ExtTreeMap κ ν} {k : κ} : k ∈ keySet m ↔ m[k]?.isSome := by
  rw [keySet, List.mem_toFinset, ExtTreeMap.mem_keys, ExtTreeMap.mem_iff_isSome_getElem?]

omit [LawfulEqOrd κ] [BEq κ] [LawfulBEq κ] in
theorem card_keySet (m : ExtTreeMap κ ν) : (keySet m).card = m.size := by
  rw [keySet, List.toFinset_card_of_nodup ExtTreeMap.nodup_keys, ExtTreeMap.length_keys]

omit [BEq κ] [LawfulBEq κ] in
/-- A set that has the keys has as many elements as the table entries. -/
theorem card_eq_size {m : ExtTreeMap κ ν} {S : Finset κ} (h : ∀ k, k ∈ S ↔ m[k]?.isSome) : S.card = m.size := by
  rw [← card_keySet]
  congr 1
  ext k
  rw [h, mem_keySet]

omit [BEq κ] [LawfulBEq κ] in
theorem size_pos_iff {m : ExtTreeMap κ ν} : 0 < m.size ↔ ∃ k : κ, m[k]?.isSome := by
  rw [← card_keySet, Finset.card_pos]
  exact exists_congr fun k => mem_keySet

theorem keySet_insertAll (m : ExtTreeMap κ ν) (l : List (κ × ν)) :
    keySet (insertAll m l) = keySet m ∪ (l.map Prod.fst).toFinset := by
  ext k
  rw [mem_keySet, getElem?_insertAll, Option.isSome_or, Bool.or_eq_true, List.lookup_isSome_iff,
    Finset.mem_union, mem_keySet, List.mem_toFinset, or_comm]
  simp

theorem keySet_eraseAll (m : ExtTreeMap κ ν) (l : List κ) :
    keySet (eraseAll m l) = keySet m \ l.toFinset := by
  ext k
  rw [mem_keySet, getElem?_eraseAll, Finset.mem_sdiff, mem_keySet, List.mem_toFinset]
  by_cases h : k ∈ l
  · simp [h]
  · simp [h]

/-- A list adds the keys that are new, each once. -/
theorem size_insertAll (m : ExtTreeMap κ ν) (l : List (κ × ν)) :
    (insertAll m l).size = m.size + ((l.map Prod.fst).toFinset \ keySet m).card := by
  rw [← card_keySet, ← card_keySet, keySet_insertAll, ← Finset.union_sdiff_self_eq_union,
    Finset.card_union_of_disjoint Finset.disjoint_sdiff]

theorem size_eraseAll (m : ExtTreeMap κ ν) (l : List κ) :
    (eraseAll m l).size + (l.toFinset ∩ keySet m).card = m.size := by
  rw [← card_keySet, ← card_keySet, keySet_eraseAll, Finset.inter_comm, Finset.card_sdiff_add_card_inter]

/-! ## The entries in order -/

omit [BEq κ] [LawfulBEq κ] [DecidableEq κ] in
/-- The list of the entries is the only one in key order that has them. -/
theorem toList_eq {m : ExtTreeMap κ ν} {l : List (κ × ν)}
    (hs : l.Pairwise fun a b => compare a.1 b.1 = .lt) (h : ∀ k v, (k, v) ∈ l ↔ m[k]? = some v) :
    m.toList = l := by
  have : Antisymm fun a b : κ × ν => compare a.1 b.1 = .lt :=
    ⟨fun a b hab hba => by rw [OrientedCmp.gt_of_lt hab] at hba; cases hba⟩
  have : Irrefl fun a b : κ × ν => compare a.1 b.1 = .lt :=
    ⟨fun a ha => by rw [compare_self] at ha; cases ha⟩
  apply ExtTreeMap.ordered_keys_toList.eq_of_mem_iff hs
  intro p
  rw [h p.1 p.2, ExtTreeMap.mem_toList_iff_getElem?_eq_some]

omit [BEq κ] [LawfulBEq κ] [DecidableEq κ] in
theorem keys_eq {m : ExtTreeMap κ ν} {l : List κ} (hs : l.Pairwise fun a b => compare a b = .lt)
    (h : ∀ k, k ∈ l ↔ m[k]?.isSome) : m.keys = l := by
  have : Antisymm fun a b : κ => compare a b = .lt :=
    ⟨fun a b hab hba => by rw [OrientedCmp.gt_of_lt hab] at hba; cases hba⟩
  have : Irrefl fun a b : κ => compare a b = .lt :=
    ⟨fun a ha => by rw [compare_self] at ha; cases ha⟩
  apply ExtTreeMap.ordered_keys.eq_of_mem_iff hs
  intro k
  rw [h k, ExtTreeMap.mem_keys, ExtTreeMap.mem_iff_isSome_getElem?]

end GameStore.Lib
