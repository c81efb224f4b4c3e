import GameStore.Sequential
import GameStore.Ranges

/-!
# Lists are sequences

The elements of a list stand at consecutive indexes, from the middle of the `u64` space to
both sides. While fewer than `2^63` elements are pushed to it, no index wraps around, and
the operations are those of a sequence.
-/

namespace GameStore

open Lib Std

/-! ## Lists with given elements -/

/-- The records under the version are the elements `l`, at the indexes from `head` to `tail`. -/
structure Spells (d : Disk) (k : Bytes) (v head tail : UInt64) (l : List Bytes) : Prop where
  width : tail.toNat = head.toNat + l.length
  element : ∀ index : UInt64, d[elementKey k v index]? =
    if head.toNat ≤ index.toNat then l[index.toNat - head.toNat]? else none
  fields : ∀ field, d[subkey k v field]?.isSome → ∃ index, field = listIndexField index

theorem Spells.listed {d : Disk} {k : Bytes} {v head tail : UInt64} {l : List Bytes}
    (h : Spells d k v head tail l) : Listed d k v head tail l where
  width := h.width
  element offset ho := by
    have hbound := tail.toNat_lt
    rw [h.width] at hbound
    rw [h.element, toNat_add_offset hbound (by omega), if_pos (by omega), Nat.add_sub_cancel_left]

/-! ## One element at an end -/

section Ends

variable {k : Bytes} {v head tail : UInt64} {d : Disk} {l : List Bytes}

theorem elementKey_inj {i j : UInt64} : elementKey k v i = elementKey k v j ↔ i = j := by
  rw [elementKey, elementKey, subkey_inj]
  exact u64Be_injective.eq_iff

theorem getElem?_applyElement (op : WriteOp) {i : UInt64} (hop : op.key = elementKey k v i) (index : UInt64) :
    (op.apply d)[elementKey k v index]? = if i = index then op.value else d[elementKey k v index]? := by
  rw [getElem?_apply, hop]
  simp only [elementKey_inj]

theorem fields_applyElement (hfields : ∀ field, d[subkey k v field]?.isSome → ∃ index, field = listIndexField index)
    (op : WriteOp) {i : UInt64} (hop : op.key = elementKey k v i) (field : Bytes)
    (h : (op.apply d)[subkey k v field]?.isSome) : ∃ index, field = listIndexField index := by
  rw [getElem?_apply, hop] at h
  split at h
  · rename_i heq
    exact ⟨i, (subkey_inj.mp heq).symm⟩
  · exact hfields field h

theorem toNat_sub_one {i : UInt64} (h : 0 < i.toNat) : (i - 1).toNat = i.toNat - 1 := by
  rw [UInt64.toNat_sub_of_le _ _ (UInt64.le_iff_toNat_le.mpr (by rw [UInt64.toNat_one]; omega)), UInt64.toNat_one]

theorem toNat_add_one {i : UInt64} (h : i.toNat + 1 < 2 ^ 64) : (i + 1).toNat = i.toNat + 1 := by
  rw [UInt64.toNat_add, UInt64.toNat_one, Nat.mod_eq_of_lt h]

theorem Spells.pushFront (h : Spells d k v head tail l) (hpos : 0 < head.toNat) (x : Bytes) :
    Spells ((WriteOp.put (elementKey k v (head - 1)) x).apply d) k v (head - 1) tail (x :: l) where
  width := by
    rw [toNat_sub_one hpos, h.width, List.length_cons]
    omega
  element index := by
    rw [getElem?_applyElement _ rfl, h.element, toNat_sub_one hpos]
    by_cases hi : head - 1 = index
    · rw [if_pos hi, ← hi, toNat_sub_one hpos, if_pos le_rfl, Nat.sub_self]
      rfl
    · have hne : index.toNat ≠ head.toNat - 1 := fun hn =>
        hi (UInt64.toNat_inj.mp ((toNat_sub_one hpos).trans hn.symm))
      rw [if_neg hi]
      by_cases hle : head.toNat ≤ index.toNat
      · rw [if_pos hle, if_pos (by omega), show index.toNat - (head.toNat - 1) = index.toNat - head.toNat + 1
          by omega, List.getElem?_cons_succ]
      · rw [if_neg hle, if_neg (by omega)]
  fields := fields_applyElement h.fields _ rfl

theorem Spells.pushBack (h : Spells d k v head tail l) (hroom : tail.toNat + 1 < 2 ^ 64) (x : Bytes) :
    Spells ((WriteOp.put (elementKey k v tail) x).apply d) k v head (tail + 1) (l ++ [x]) where
  width := by
    rw [toNat_add_one hroom, h.width, List.length_append, List.length_singleton]
    omega
  element index := by
    rw [getElem?_applyElement _ rfl, h.element]
    by_cases hi : tail = index
    · rw [if_pos hi, ← hi, h.width, if_pos (by omega), Nat.add_sub_cancel_left, List.getElem?_concat_length]
      rfl
    · have hne : index.toNat ≠ head.toNat + l.length := fun hn =>
        hi (UInt64.toNat_inj.mp (h.width.trans hn.symm))
      rw [if_neg hi]
      by_cases hle : head.toNat ≤ index.toNat
      · rw [if_pos hle, if_pos hle]
        by_cases hlt : index.toNat - head.toNat < l.length
        · rw [List.getElem?_append_left hlt]
        · rw [List.getElem?_eq_none (by omega), List.getElem?_eq_none]
          rw [List.length_append, List.length_singleton]
          omega
      · rw [if_neg hle, if_neg hle]
  fields := fields_applyElement h.fields _ rfl

theorem Spells.popFront {x : Bytes} (h : Spells d k v head tail (x :: l)) :
    Spells ((WriteOp.delete (elementKey k v head)).apply d) k v (head + 1) tail l := by
  have hwidth := h.width
  rw [List.length_cons] at hwidth
  have hhead : (head + 1).toNat = head.toNat + 1 := toNat_add_one (by have := tail.toNat_lt; omega)
  refine ⟨by omega, fun index => ?_, fields_applyElement h.fields _ rfl⟩
  rw [getElem?_applyElement _ rfl, h.element, hhead]
  by_cases hi : head = index
  · rw [if_pos hi, ← hi, if_neg (by omega)]
    rfl
  · have hne : index.toNat ≠ head.toNat := fun hn => hi (UInt64.toNat_inj.mp hn.symm)
    rw [if_neg hi]
    by_cases hle : head.toNat ≤ index.toNat
    · rw [if_pos hle, if_pos (by omega), show index.toNat - head.toNat = index.toNat - (head.toNat + 1) + 1
        by omega, List.getElem?_cons_succ]
    · rw [if_neg hle, if_neg (by omega)]

theorem Spells.popBack {x : Bytes} (h : Spells d k v head tail (l ++ [x])) :
    Spells ((WriteOp.delete (elementKey k v (tail - 1))).apply d) k v head (tail - 1) l := by
  have hwidth := h.width
  rw [List.length_append, List.length_singleton] at hwidth
  have htail : (tail - 1).toNat = tail.toNat - 1 := toNat_sub_one (by omega)
  refine ⟨by omega, fun index => ?_, fields_applyElement h.fields _ rfl⟩
  rw [getElem?_applyElement _ rfl, h.element]
  by_cases hi : tail - 1 = index
  · have hn : index.toNat = head.toNat + l.length := by rw [← hi]; omega
    rw [if_pos hi, if_pos (by omega), List.getElem?_eq_none (by omega)]
    rfl
  · have hne : index.toNat ≠ head.toNat + l.length := fun hn => hi (UInt64.toNat_inj.mp (by omega))
    rw [if_neg hi]
    by_cases hle : head.toNat ≤ index.toNat
    · rw [if_pos hle, if_pos hle]
      by_cases hlt : index.toNat - head.toNat < l.length
      · rw [List.getElem?_append_left hlt]
      · rw [List.getElem?_eq_none, List.getElem?_eq_none (by omega)]
        rw [List.length_append, List.length_singleton]
        omega
    · rw [if_neg hle, if_neg hle]

end Ends

/-! ## The loops -/

/-- A sequence with a value added at an end. -/
def pushOne (left : Bool) (l : List Bytes) (x : Bytes) : List Bytes := if left then x :: l else l ++ [x]

/-- The first `n` elements from an end, in the order they are taken. -/
def takeEnd (left : Bool) (l : List Bytes) (n : ℕ) : List Bytes := if left then l.take n else l.reverse.take n

/-- What they leave. -/
def dropEnd (left : Bool) (l : List Bytes) (n : ℕ) : List Bytes :=
  if left then l.drop n else (l.reverse.drop n).reverse

theorem length_foldl_pushOne (left : Bool) (values l : List Bytes) :
    (values.foldl (pushOne left) l).length = l.length + values.length := by
  induction values generalizing l with
  | nil => rfl
  | cons x values ih =>
    rw [List.foldl_cons, ih, List.length_cons, pushOne]
    cases left with
    | true => rw [if_pos rfl, List.length_cons]; omega
    | false => rw [if_neg Bool.false_ne_true, List.length_append, List.length_singleton]; omega

theorem length_takeEnd (left : Bool) (l : List Bytes) (n : ℕ) : (takeEnd left l n).length = min n l.length := by
  rw [takeEnd]
  split
  · rw [List.length_take]
  · rw [List.length_take, List.length_reverse]

theorem length_dropEnd (left : Bool) (l : List Bytes) (n : ℕ) : (dropEnd left l n).length = l.length - n := by
  rw [dropEnd]
  split
  · rw [List.length_drop]
  · rw [List.length_reverse, List.length_drop, List.length_reverse]

section Loops

variable {k : Bytes} {v : UInt64} {d : Disk}

/-- How far `push` moves the ends. -/
structure Moved (left : Bool) (n : ℕ) (e e' : Ends) : Prop where
  head : e'.head.toNat + (if left then n else 0) = e.head.toNat
  tail : e'.tail.toNat = e.tail.toNat + (if left then 0 else n)

theorem spells_foldl_pushStep (left : Bool) (values : List Bytes) (e : Ends) {l : List Bytes}
    (h : Spells (applyBatch d e.batch) k v e.head e.tail l)
    (hfront : left = true → values.length ≤ e.head.toNat)
    (hback : left = false → e.tail.toNat + values.length < 2 ^ 64) :
    Spells (applyBatch d (values.foldl (pushStep k v left) e).batch) k v
        (values.foldl (pushStep k v left) e).head (values.foldl (pushStep k v left) e).tail
        (values.foldl (pushOne left) l) ∧
      Moved left values.length e (values.foldl (pushStep k v left) e) := by
  induction values generalizing e l with
  | nil => exact ⟨h, by cases left <;> rfl, by cases left <;> rfl⟩
  | cons x values ih =>
    rw [List.length_cons] at hfront hback
    rw [List.foldl_cons, List.foldl_cons, List.length_cons]
    -- The index moves by one; it does not wrap, for there is room.
    cases left with
    | true =>
      have hroom := hfront rfl
      have hhead : (pushStep k v true e x).head.toNat = e.head.toNat - 1 := toNat_sub_one (by omega)
      have hstep : Spells (applyBatch d (pushStep k v true e x).batch) k v (pushStep k v true e x).head
          (pushStep k v true e x).tail (pushOne true l x) := by
        rw [pushStep, if_pos rfl, applyBatch_append]
        exact h.pushFront (by omega) x
      obtain ⟨hspells, hh, ht⟩ := ih (pushStep k v true e x) hstep (fun _ => by omega) fun h => Bool.noConfusion h
      rw [if_pos rfl] at hh ht
      refine ⟨hspells, ?_, ?_⟩
      · rw [if_pos rfl]
        omega
      · rw [if_pos rfl]
        exact ht
    | false =>
      have hroom := hback rfl
      have htail : (pushStep k v false e x).tail.toNat = e.tail.toNat + 1 := toNat_add_one (by omega)
      have hstep : Spells (applyBatch d (pushStep k v false e x).batch) k v (pushStep k v false e x).head
          (pushStep k v false e x).tail (pushOne false l x) := by
        rw [pushStep, if_neg Bool.false_ne_true, applyBatch_append]
        exact h.pushBack (by omega) x
      obtain ⟨hspells, hh, ht⟩ := ih (pushStep k v false e x) hstep (fun h => Bool.noConfusion h) fun _ => by omega
      rw [if_neg Bool.false_ne_true] at hh ht
      refine ⟨hspells, ?_, ?_⟩
      · rw [if_neg Bool.false_ne_true]
        exact hh
      · rw [if_neg Bool.false_ne_true]
        omega

theorem getElem?_of_deletes {b : WriteBatch} (hdel : ∀ op ∈ b, op.value = none) {raw x : Bytes}
    (h : (applyBatch d b)[raw]? = some x) : d[raw]? = some x := by
  by_cases hmem : ∃ op ∈ b, op.key = raw
  · rw [getElem?_deleted hdel hmem] at h
    cases h
  · push Not at hmem
    rwa [getElem?_applyBatch_of_ne hmem] at h

/-- The batch of a pop deletes elements. -/
def Deletes (k : Bytes) (v : UInt64) (b : WriteBatch) : Prop := ∀ op ∈ b, ∃ i, op = .delete (elementKey k v i)

theorem Deletes.concat {b : WriteBatch} (h : Deletes k v b) (i : UInt64) :
    Deletes k v (b ++ [.delete (elementKey k v i)]) := by
  intro op hop
  rcases List.mem_append.mp hop with hop | hop
  · exact h op hop
  · exact ⟨i, List.mem_singleton.mp hop⟩

theorem Deletes.value {b : WriteBatch} (h : Deletes k v b) : ∀ op ∈ b, op.value = none := by
  intro op hop
  obtain ⟨i, rfl⟩ := h op hop
  rfl

theorem Deletes.records {b : WriteBatch} (hk : k.length < 2 ^ 32) (h : Deletes k v b) : Records k v b := by
  intro op hop
  obtain ⟨i, rfl⟩ := h op hop
  exact parseOwnerVersion_subkey hk v _

/-- The ends after a pop loop that leaves `l` of a list. -/
structure PopsTo (d : Disk) (k : Bytes) (v : UInt64) (e e' : Ends) (l : List Bytes) : Prop where
  spells : Spells (applyBatch d e'.batch) k v e'.head e'.tail l
  deletes : Deletes k v e'.batch
  head : e.head.toNat ≤ e'.head.toNat
  tail : e'.tail.toNat ≤ e.tail.toNat

theorem run_readElement {w : World} {index : UInt64} {x : Bytes} (h : w.disk[elementKey k v index]? = some x) :
    (readElement k v index).run exec w = (.ok x, w) := by
  have hget : exec (.get (elementKey k v index)) w = (some x, w) := congrArg (·, w) h
  rw [readElement, Prog.perform_bind, Prog.run_call, hget]
  rfl

theorem run_popLoop_spells (left : Bool) (n : ℕ) (e : Ends) (out : List Bytes) {w : World} {l : List Bytes}
    (h : Spells (applyBatch w.disk e.batch) k v e.head e.tail l) (hdel : Deletes k v e.batch) :
    ∃ e', (popLoop k v left n e out).run exec w = (.ok (e', out ++ takeEnd left l n), w) ∧
      PopsTo w.disk k v e e' (dropEnd left l n) := by
  induction n generalizing e out l with
  | zero =>
    have htake : takeEnd left l 0 = [] := by cases left <;> rfl
    have hdrop : dropEnd left l 0 = l := by cases left <;> simp [dropEnd]
    refine ⟨e, ?_, ?_, hdel, le_rfl, le_rfl⟩
    · rw [htake, List.append_nil]
      rfl
    · rwa [hdrop]
  | succ n ih =>
    rw [popLoop]
    -- The window is empty when the list is.
    by_cases hnil : l = []
    · subst hnil
      have htake : takeEnd left [] (n + 1) = [] := by cases left <;> rfl
      have hdrop : dropEnd left [] (n + 1) = [] := by cases left <;> rfl
      have hlt : ¬ e.head < e.tail := by
        rw [UInt64.lt_iff_toNat_lt, h.width]
        exact Nat.lt_irrefl _
      rw [if_neg hlt, htake, hdrop, List.append_nil]
      exact ⟨e, rfl, h, hdel, le_rfl, le_rfl⟩
    have hpos := List.length_pos_of_ne_nil hnil
    have hwidth := h.width
    have hlt : e.head < e.tail := by
      rw [UInt64.lt_iff_toNat_lt, h.width]
      omega
    rw [if_pos hlt]
    dsimp only
    cases left with
    | true =>
      obtain ⟨x, l, rfl⟩ := List.exists_cons_of_ne_nil hnil
      have hread : w.disk[elementKey k v e.head]? = some x := by
        refine getElem?_of_deletes hdel.value (d := w.disk) ?_
        rw [h.element, if_pos le_rfl, Nat.sub_self]
        rfl
      have hpop : Spells (applyBatch w.disk (e.batch ++ [.delete (elementKey k v e.head)])) k v (e.head + 1)
          e.tail l := by
        rw [applyBatch_append]
        exact h.popFront
      obtain ⟨e', hrun, hto⟩ := ih ⟨e.head + 1, e.tail, e.batch ++ [.delete (elementKey k v e.head)]⟩
        (out ++ [x]) hpop (hdel.concat e.head)
      have hhead : (e.head + 1).toNat = e.head.toNat + 1 := toNat_add_one (by
        have := e.tail.toNat_lt
        rw [List.length_cons] at hwidth
        omega)
      have hle : (e.head + 1).toNat ≤ e'.head.toNat := hto.head
      refine ⟨e', ?_, hto.spells, hto.deletes, by omega, hto.tail⟩
      rw [if_pos rfl, Prog.run_bind_ok _ (run_readElement hread), if_pos rfl, hrun, List.append_assoc]
      rfl
    | false =>
      obtain ⟨l, x, rfl⟩ := (List.eq_nil_or_concat' l).resolve_left hnil
      rw [List.length_append, List.length_singleton] at hwidth
      have htail : (e.tail - 1).toNat = e.tail.toNat - 1 := toNat_sub_one (by omega)
      have hread : w.disk[elementKey k v (e.tail - 1)]? = some x := by
        refine getElem?_of_deletes hdel.value (d := w.disk) ?_
        rw [h.element, htail, if_pos (by omega), show e.tail.toNat - 1 - e.head.toNat = l.length by omega]
        exact List.getElem?_concat_length
      have hpop : Spells (applyBatch w.disk (e.batch ++ [.delete (elementKey k v (e.tail - 1))])) k v e.head
          (e.tail - 1) l := by
        rw [applyBatch_append]
        exact h.popBack
      obtain ⟨e', hrun, hto⟩ := ih ⟨e.head, e.tail - 1, e.batch ++ [.delete (elementKey k v (e.tail - 1))]⟩
        (out ++ [x]) hpop (hdel.concat (e.tail - 1))
      have htake : takeEnd false (l ++ [x]) (n + 1) = x :: takeEnd false l n := by simp [takeEnd]
      have hdrop : dropEnd false (l ++ [x]) (n + 1) = dropEnd false l n := by simp [dropEnd]
      have hle : e'.tail.toNat ≤ (e.tail - 1).toNat := hto.tail
      refine ⟨e', ?_, hdrop ▸ hto.spells, hto.deletes, hto.head, by omega⟩
      rw [if_neg Bool.false_ne_true, Prog.run_bind_ok _ (run_readElement hread), if_neg Bool.false_ne_true, hrun,
        htake, List.append_assoc]
      rfl

end Loops

/-! ## The list a key holds -/

/-- The metadata `m` goes with the elements `l`, at most `p` elements having been pushed. -/
structure ListMeta (d : Disk) (k : Bytes) (m : Meta) (l : List Bytes) (p : ℕ) : Prop where
  typed : m.typeId = TYPE_LIST
  ends : ∃ head tail, m.listBounds = some (head, tail) ∧ Spells d k m.version head tail l ∧
    2 ^ 63 ≤ head.toNat + p ∧ tail.toNat ≤ 2 ^ 63 + p
  size : l.length ≤ p

section Lists

variable {k : Bytes} {w : World} {m : Meta} {l : List Bytes} {p : ℕ}

theorem ListMeta.mono {d : Disk} {p' : ℕ} (h : ListMeta d k m l p) (hp : p ≤ p') : ListMeta d k m l p' := by
  obtain ⟨head, tail, hb, hs, hlow, hhigh⟩ := h.ends
  have hsize := h.size
  exact ⟨h.typed, ⟨head, tail, hb, hs, by omega, by omega⟩, by omega⟩

theorem Spells.congr {d d' : Disk} {v head tail : UInt64} (hk : k.length < 2 ^ 32)
    (h : ∀ raw, RecordOf k v raw → d'[raw]? = d[raw]?) (hs : Spells d k v head tail l) :
    Spells d' k v head tail l where
  width := hs.width
  element index := (h _ (parseOwnerVersion_subkey hk v _)).trans (hs.element index)
  fields field hfield := hs.fields field (by rwa [h _ (parseOwnerVersion_subkey hk v _)] at hfield)

theorem toInt_listLen {head tail : UInt64} (hwidth : tail.toNat = head.toNat + l.length)
    (hlen : l.length < 2 ^ 63) : (listLen head tail).toInt = l.length := by
  have hle : head ≤ tail := UInt64.le_iff_toNat_le.mpr (by omega)
  rw [listLen_eq hle, show tail.toNat - head.toNat = l.length by omega, toInt_len hlen]

/-- The ends and the batch with which `push` writes. -/
abbrev pushedEnds (k : Bytes) (v head tail : UInt64) (values : List Bytes) (left : Bool) : Ends :=
  values.foldl (pushStep k v left) ⟨head, tail, []⟩

theorem run_push {w' : World} {head tail : UInt64}
    (hload : (loadOrCreate k TYPE_LIST fun m =>
      m.setListBounds LIST_INITIAL_INDEX LIST_INITIAL_INDEX).run exec w = (.ok m, w'))
    (hb : m.listBounds = some (head, tail)) (values : List Bytes) (left : Bool) :
    let e := pushedEnds k m.version head tail values left
    (push k values left).run exec w = (.ok (listLen e.head e.tail).toInt,
      { w' with disk := applyBatch w'.disk (e.batch ++
        [.put (metaKey k) (m.setListBounds e.head e.tail).encode]) }) := by
  rw [push, Prog.run_bind_ok _ hload, hb]
  rfl

theorem readMeta_push (hk : k.length < 2 ^ 32) {w' : World} {head tail : UInt64}
    (hload : (loadOrCreate k TYPE_LIST fun m =>
      m.setListBounds LIST_INITIAL_INDEX LIST_INITIAL_INDEX).run exec w = (.ok m, w'))
    (hb : m.listBounds = some (head, tail)) (values : List Bytes) (left : Bool) :
    readMeta ((push k values left).run exec w).2.disk k =
      some (m.setListBounds (pushedEnds k m.version head tail values left).head
        (pushedEnds k m.version head tail values left).tail) := by
  have hr : Records k m.version (pushedEnds k m.version head tail values left).batch := by
    rw [pushedEnds, foldl_pushStep]
    exact fieldPuts_records hk _
  rw [run_push hload hb]
  exact (readMeta_putMeta hr _ _ _).trans (if_pos rfl)

theorem push_lists (hk : k.length < 2 ^ 32) {w' : World}
    (hload : (loadOrCreate k TYPE_LIST fun m =>
      m.setListBounds LIST_INITIAL_INDEX LIST_INITIAL_INDEX).run exec w = (.ok m, w'))
    (hm : ListMeta w'.disk k m l p) (values : List Bytes) (left : Bool)
    (hroom : p + values.length < 2 ^ 63) :
    ∃ m', ((push k values left).run exec w).1 = .ok ((l.length + values.length : ℕ) : ℤ) ∧
      readMeta ((push k values left).run exec w).2.disk k = some m' ∧
      m'.expireMs = m.expireMs ∧ m'.version = m.version ∧
      ListMeta ((push k values left).run exec w).2.disk k m' (values.foldl (pushOne left) l)
        (p + values.length) := by
  obtain ⟨head, tail, hb, hs, hlow, hhigh⟩ := hm.ends
  have hsize := hm.size
  obtain ⟨hspells, hmoved⟩ := spells_foldl_pushStep (d := w'.disk) left values ⟨head, tail, []⟩ hs
    (fun _ => by dsimp only; omega) (fun _ => by dsimp only; omega)
  change Moved left values.length _ (pushedEnds k m.version head tail values left) at hmoved
  have hmeta := readMeta_push hk hload hb values left
  have hrun := run_push hload hb values left
  set e := pushedEnds k m.version head tail values left
  have hlen := length_foldl_pushOne left values l
  rw [hrun] at hmeta ⊢
  refine ⟨m.setListBounds e.head e.tail, ?_, hmeta, rfl, rfl, hm.typed,
    ⟨e.head, e.tail, Meta.listBounds_setListBounds hm.typed _ _, ?_, ?_, ?_⟩, ?_⟩
  · rw [toInt_listLen hspells.width (by omega), hlen]
  · exact hspells.congr hk fun raw hraw => getElem?_record_putMeta w'.disk _ _ hraw
  · have := hmoved.head
    dsimp only at this
    split at this <;> omega
  · have := hmoved.tail
    dsimp only at this
    split at this <;> omega
  · omega

theorem pop_lists (hk : k.length < 2 ^ 32) (hlive : w.liveMeta k = some m) (hm : ListMeta w.disk k m l p)
    (count : ℕ) (left : Bool) :
    ((pop k count left).run exec w).1 = .ok (takeEnd left l count) ∧
      (takeEnd left l count = [] → ((pop k count left).run exec w).2.disk = w.disk) ∧
      (takeEnd left l count ≠ [] → dropEnd left l count = [] →
        ((pop k count left).run exec w).2.disk[metaKey k]? = none) ∧
      (takeEnd left l count ≠ [] → dropEnd left l count ≠ [] → ∃ m',
        readMeta ((pop k count left).run exec w).2.disk k = some m' ∧ m'.expireMs = m.expireMs ∧
          m'.version = m.version ∧
          ListMeta ((pop k count left).run exec w).2.disk k m' (dropEnd left l count) p) := by
  obtain ⟨w', hload, hst, -⟩ := run_loadTyped_live hlive
  have hd : w'.disk = w.disk := by rw [hst]
  rw [hm.typed] at hload
  obtain ⟨head, tail, hb, hs, hlow, hhigh⟩ := hm.ends
  have hsize := hm.size
  have hs' : Spells (applyBatch w'.disk []) k m.version head tail l := hd.symm ▸ hs
  obtain ⟨e, hloop, hto⟩ := run_popLoop_spells left count ⟨head, tail, []⟩ [] hs' (fun op hop => nomatch hop)
  rw [List.nil_append] at hloop
  have hrun : (pop k count left).run exec w = (finishPop k m e (takeEnd left l count)).run exec w' := by
    rw [pop, Prog.run_bind_ok _ hload]
    dsimp only
    rw [hb]
    dsimp only
    rw [Prog.run_bind_ok _ hloop]
    rfl
  -- The source compares the ends to see whether the list is empty.
  have hends : e.head = e.tail ↔ dropEnd left l count = [] := by
    rw [← UInt64.toNat_inj, hto.spells.width, ← List.length_eq_zero_iff]
    omega
  have hsizes := length_dropEnd left l count
  rw [hrun, finishPop]
  by_cases hnil : takeEnd left l count = []
  · rw [if_pos (by simpa using hnil)]
    exact ⟨rfl, fun _ => hd, fun h => absurd hnil h, fun h => absurd hnil h⟩
  · rw [if_neg (by simpa using hnil)]
    by_cases hall : dropEnd left l count = []
    · rw [if_pos (hends.mpr hall)]
      exact ⟨rfl, fun h => absurd h hnil, fun _ _ => (getElem?_erase_bytes _ _ _).trans (if_pos rfl),
        fun _ h => absurd hall h⟩
    · rw [if_neg fun h => hall (hends.mp h)]
      refine ⟨rfl, fun h => absurd h hnil, fun _ h => absurd h hall, fun _ _ => ⟨m.setListBounds e.head e.tail,
        (readMeta_putMeta (hto.deletes.records hk) _ _ _).trans (if_pos rfl), rfl, rfl, hm.typed, ⟨e.head, e.tail,
        Meta.listBounds_setListBounds hm.typed _ _, ?_, ?_, ?_⟩, ?_⟩⟩
      · exact hto.spells.congr hk fun raw hraw => getElem?_record_putMeta w'.disk _ _ hraw
      · have : head.toNat ≤ e.head.toNat := hto.head
        omega
      · have : e.tail.toNat ≤ tail.toNat := hto.tail
        omega
      · omega

/-- The key is stored with the elements `l` and the deadline `expireMs`; without elements
there is no key. -/
inductive HoldsList (d : Disk) (k : Bytes) (expireMs : UInt64) : List Bytes → Prop
  | gone (h : d[metaKey k]? = none) : HoldsList d k expireMs []
  | holds {l : List Bytes} {m : Meta} {p : ℕ} (hm : readMeta d k = some m) (hl : l ≠ [])
      (he : m.expireMs = expireMs) (h : ListMeta d k m l p) : HoldsList d k expireMs l

/-- On a key that holds `l` (nothing, if it is absent) with the deadline `expireMs`, after `p`
pushed elements, the operations are those of a sequence. -/
structure ActsAsList (w : World) (key : Key) (expireMs : UInt64) (l : List Bytes) (p : ℕ) : Prop where
  llen : ((Op.keyed key .llen).run w).1 = .ok (.int l.length)
  lrange : ((Op.keyed key (.lrange 0 (-1))).run w).1 = .ok (.values l)
  push : ∀ values left, InOrder w (.run (.keyed key (.push values left))) → p + values.length < 2 ^ 63 →
    ((Op.keyed key (.push values left)).run w).1 = .ok (.int (values.foldl (pushOne left) l).length) ∧
      HoldsList ((Op.keyed key (.push values left)).run w).2.disk key.1 expireMs (values.foldl (pushOne left) l)
  pop : ∀ count left, ((Op.keyed key (.pop count left)).run w).1 = .ok (.values (takeEnd left l count)) ∧
    HoldsList ((Op.keyed key (.pop count left)).run w).2.disk key.1 expireMs (dropEnd left l count)

theorem selected_all (l : List Bytes) : selected 0 (-1) l = l := by
  have hsel : ∀ p ∈ l.zipIdx, decide (Selects 0 (-1) l.length p.2) = true := by
    rintro ⟨x, i⟩ hp
    have hi := (List.mem_zipIdx hp).2.1
    have hstart : (0 : Int64).toInt = 0 := rfl
    have hstop : (-1 : Int64).toInt = -1 := rfl
    simp only [Selects, rankOf, hstart, hstop, decide_eq_true_eq]
    omega
  rw [selected, List.filter_eq_self.mpr hsel, List.zipIdx_map_fst]

theorem foldl_pushOne_ne_nil {values : List Bytes} (hne : values ≠ []) (left : Bool) (l : List Bytes) :
    values.foldl (pushOne left) l ≠ [] := by
  rw [← List.length_pos_iff, length_foldl_pushOne]
  have := List.length_pos_of_ne_nil hne
  omega

theorem actsAsList_live {key : Key} (hlive : w.liveMeta key.1 = some m) (hm : ListMeta w.disk key.1 m l p)
    (hl : l ≠ []) (hp : p < 2 ^ 63) : ActsAsList w key m.expireMs l p where
  llen := by
    obtain ⟨head, tail, hb, hs, -⟩ := hm.ends
    have hsize := hm.size
    obtain ⟨w', hload, -⟩ := run_loadTyped_live hlive
    rw [hm.typed] at hload
    have hrun : ((GameStore.llen key.1).run exec w).1 = .ok (l.length : ℤ) := by
      rw [GameStore.llen, Prog.run_bind_ok _ hload]
      dsimp only
      rw [hb, ← toInt_listLen hs.width (by omega)]
      rfl
    exact (run_keyed key .llen rfl hrun).1
  lrange := by
    obtain ⟨head, tail, hb, hs, -⟩ := hm.ends
    have hsize := hm.size
    have hrun := run_lrange hlive hm.typed hb hs.listed (by omega) 0 (-1)
    rw [selected_all] at hrun
    exact (run_keyed key (.lrange 0 (-1)) rfl hrun).1
  push values left hstep hroom := by
    obtain ⟨w', hload, hst, -⟩ := run_loadOrCreate_live hlive fun m =>
      m.setListBounds LIST_INITIAL_INDEX LIST_INITIAL_INDEX
    rw [hm.typed] at hload
    have hd : w'.disk = w.disk := by rw [hst]
    have hne : values ≠ [] := by simpa [Op.wellCalled, KeyOp.wellCalled] using hstep.1
    obtain ⟨m', hreply, hm', he, -, hlist⟩ := push_lists key.2 hload (hd ▸ hm) values left hroom
    obtain ⟨hr, hs⟩ := run_keyed key (.push values left) rfl hreply
    rw [hr, hs, length_foldl_pushOne]
    exact ⟨rfl, .holds hm' (foldl_pushOne_ne_nil hne left l) he hlist⟩
  pop count left := by
    obtain ⟨hreply, hsame, hgone, hrest⟩ := pop_lists key.2 hlive hm count left
    obtain ⟨hr, hs⟩ := run_keyed key (.pop count left) rfl hreply
    rw [hr, hs]
    refine ⟨rfl, ?_⟩
    by_cases hnil : takeEnd left l count = []
    · -- Nothing was asked for.
      have hzero : count = 0 := by
        have hlen := length_takeEnd left l count
        rw [hnil, List.length_nil] at hlen
        have := List.length_pos_of_ne_nil hl
        omega
      have hdrop : dropEnd left l 0 = l := by cases left <;> simp [dropEnd]
      rw [hsame hnil, hzero, hdrop]
      exact .holds (readMeta_of_liveMeta hlive) hl rfl hm
    · by_cases hall : dropEnd left l count = []
      · rw [hall]
        exact .gone (hgone hnil hall)
      · obtain ⟨m', hm', he, -, hlist⟩ := hrest hnil hall
        exact .holds hm' hall he hlist

theorem spells_unused {d : Disk} {v : UInt64} (hk : k.length < 2 ^ 32) (h : Unused d k v) (index : UInt64) :
    Spells d k v index index [] where
  width := rfl
  element i := by
    rw [elementKey, h _ (parseOwnerVersion_subkey hk v _)]
    split <;> rfl
  fields field hfield := by
    rw [h _ (parseOwnerVersion_subkey hk v _)] at hfield
    cases hfield

theorem listMeta_new {d : Disk} {v : UInt64} (hk : k.length < 2 ^ 32) (h : Unused d k v) :
    ListMeta d k ((newMeta TYPE_LIST v).setListBounds LIST_INITIAL_INDEX LIST_INITIAL_INDEX) [] 0 where
  typed := rfl
  ends := ⟨LIST_INITIAL_INDEX, LIST_INITIAL_INDEX, Meta.listBounds_setListBounds rfl _ _, spells_unused hk h _,
    by decide, by decide⟩
  size := le_rfl

theorem actsAsList_absent {key : Key} (hw : w.Orderly) (habs : w.Absent key.1) : ActsAsList w key 0 [] 0 where
  llen := run_read_absent key rfl habs
  lrange := run_read_absent key rfl habs
  push values left hstep hroom := by
    obtain ⟨w', hload, hd⟩ := run_loadOrCreate_absent habs TYPE_LIST fun m =>
      m.setListBounds LIST_INITIAL_INDEX LIST_INITIAL_INDEX
    have hnew : Unused w'.disk key.1 w.nextIssue :=
      hd ▸ (hw.unused (show (KeyOp.push values left).creates from rfl) hstep.2 habs).erase (metaKey key.1)
    have hne : values ≠ [] := by simpa [Op.wellCalled, KeyOp.wellCalled] using hstep.1
    obtain ⟨m', hreply, hm', he, -, hlist⟩ := push_lists key.2 hload (listMeta_new key.2 hnew) values left hroom
    obtain ⟨hr, hs⟩ := run_keyed key (.push values left) rfl hreply
    rw [hr, hs, length_foldl_pushOne]
    exact ⟨rfl, .holds hm' (foldl_pushOne_ne_nil hne left []) he hlist⟩
  pop count left := by
    obtain ⟨w', hload, hst, -⟩ := run_loadTyped_absent habs TYPE_LIST
    have hrun : (GameStore.pop key.1 count left).run exec w = (.ok [], w') := by
      rw [GameStore.pop, Prog.run_bind_ok _ hload]
      rfl
    have htake : takeEnd left [] count = [] := by simp [takeEnd]
    have hdrop : dropEnd left [] count = [] := by simp [dropEnd]
    obtain ⟨hr, hs⟩ := run_keyed key (.pop count left) rfl (congrArg Prod.fst hrun)
    rw [hr, hs, hrun, htake, hdrop]
    exact ⟨rfl, .gone hst.getElem?_metaKey⟩

/-! ## Whole runs -/

/-- The version of the list that the key holds. -/
def listVersion (d : Disk) (k : Bytes) : Option UInt64 :=
  (readMeta d k).bind fun m => if m.typeId = TYPE_LIST then some m.version else none

/-- How many elements an operation pushes to the incarnation `v` of the list at `k`. -/
def Op.pushed (k : Bytes) (v : UInt64) (w : World) : Op → ℕ
  | .keyed key (.push values left) =>
    if key.1 = k ∧ listVersion ((Op.keyed key (.push values left)).run w).2.disk k = some v
    then values.length else 0
  | _ => 0

/-- How many elements a run pushes to the incarnation `v` of the list at `k`. -/
def pushes (k : Bytes) (v : UInt64) : World → List Event → ℕ
  | _, [] => 0
  | w, .run op :: es => op.pushed k v w + pushes k v ((Event.run op).apply w) es
  | w, e :: es => pushes k v (e.apply w) es

/-- A list is stored as its elements, after at most so many pushes as `c` says; and, in runs
of operations that are called with elements, there are some. -/
def ListCounted (filled : Prop) (c : Bytes → UInt64 → ℕ) (d : Disk) (k : Bytes) (m : Meta) : Prop :=
  ∃ l, (filled → l ≠ []) ∧ ListMeta d k m l (c k m.version)

theorem listCounted_untouched {filled : Prop} {c : Bytes → UInt64 → ℕ} {d d' : Disk} {key : Key} {m m' : Meta}
    (h : Untouched key.1 d d' m m') (hm : ListCounted filled c d key.1 m) : ListCounted filled c d' key.1 m' := by
  obtain ⟨l, hl, hlist⟩ := hm
  obtain ⟨head, tail, hb, hs, hbounds⟩ := hlist.ends
  rw [h.same]
  exact ⟨l, hl, hlist.typed, ⟨head, tail, hb, hs.congr key.2 h.records, hbounds⟩, hlist.size⟩

/-- `push` keeps its list counted, from the metadata that it found or made. -/
theorem push_counted {filled : Prop} {c : Bytes → UInt64 → ℕ} {key : Key} {values : List Bytes} {left : Bool}
    {w' : World} (hload : (loadOrCreate key.1 TYPE_LIST fun m =>
      m.setListBounds LIST_INITIAL_INDEX LIST_INITIAL_INDEX).run exec w = (.ok m, w'))
    (hm : ListMeta w'.disk key.1 m l p) (hp : p ≤ c key.1 m.version) (hcall : filled → values ≠ [])
    (hroom : c key.1 m.version + (Op.keyed key (.push values left)).pushed key.1 m.version w < 2 ^ 63)
    {m' : Meta} (hm' : readMeta ((Op.keyed key (.push values left)).run w).2.disk key.1 = some m') :
    ListCounted filled (fun k v => c k v + (Op.keyed key (.push values left)).pushed k v w)
      ((Op.keyed key (.push values left)).run w).2.disk key.1 m' := by
  obtain ⟨head, tail, hb, -⟩ := hm.ends
  have hdisk : ((Op.keyed key (.push values left)).run w).2 = ((push key.1 values left).run exec w).2 := by
    rw [Op.run, Op.prog, KeyOp.prog, Prog.run_map]
  -- What is pushed is pushed to the incarnation of `m`.
  have hpushed : (Op.keyed key (.push values left)).pushed key.1 m.version w = values.length := by
    refine if_pos ⟨rfl, ?_⟩
    rw [listVersion, hdisk, readMeta_push key.2 hload hb]
    exact if_pos hm.typed
  rw [hpushed] at hroom
  obtain ⟨m'', -, hm'', -, hv, hlist⟩ := push_lists key.2 hload hm values left (by omega)
  rw [hdisk] at hm' ⊢
  obtain rfl : m'' = m' := Option.some.inj (hm''.symm.trans hm')
  refine ⟨_, fun hf => foldl_pushOne_ne_nil (hcall hf) left l, hlist.mono ?_⟩
  dsimp only
  rw [hv, hpushed]
  omega

theorem pop_counted {filled : Prop} {c : Bytes → UInt64 → ℕ} {key : Key} {count : ℕ} {left : Bool}
    (hw : w.Orderly) (hkept : Kept TYPE_LIST (ListCounted filled c) w.disk)
    (htyped : ∀ m, w.liveMeta key.1 = some m → m.typeId = TYPE_LIST) {m' : Meta}
    (hm' : readMeta ((Op.keyed key (.pop count left)).run w).2.disk key.1 = some m') :
    ListCounted filled c ((Op.keyed key (.pop count left)).run w).2.disk key.1 m' := by
  have hdisk : ((Op.keyed key (.pop count left)).run w).2 = ((pop key.1 count left).run exec w).2 := by
    rw [Op.run, Op.prog, KeyOp.prog, Prog.run_map]
  have hleft : ((Op.keyed key (.pop count left)).run w).2.disk[metaKey key.1]? ≠ none := by
    intro h
    rw [readMeta, h] at hm'
    cases hm'
  cases hlive : w.liveMeta key.1 with
  | none => exact (hleft (run_typed_gone (hw.absent hlive) _ _ rfl)).elim
  | some m =>
    obtain ⟨l, hl, hlist⟩ := hkept key m (readMeta_of_liveMeta hlive) (htyped m hlive)
    obtain ⟨-, hsame, hgone, hrest⟩ := pop_lists key.2 hlive hlist count left
    rw [hdisk] at hm' hleft ⊢
    by_cases hnil : takeEnd left l count = []
    · rw [hsame hnil] at hm' ⊢
      obtain rfl : m = m' := Option.some.inj ((readMeta_of_liveMeta hlive).symm.trans hm')
      exact ⟨l, hl, hlist⟩
    · by_cases hall : dropEnd left l count = []
      · exact absurd (hgone hnil hall) hleft
      · obtain ⟨m'', hm'', -, hv, hlist'⟩ := hrest hnil hall
        obtain rfl : m'' = m' := Option.some.inj (hm''.symm.trans hm')
        exact ⟨_, fun _ => hall, hv ▸ hlist'⟩

theorem listsKept_step {filled : Prop} {c : Bytes → UInt64 → ℕ} {op : Op} (he : Ascending w (.run op))
    (hcall : filled → op.wellCalled) (hroom : ∀ k v, c k v + op.pushed k v w < 2 ^ 63) (hw : w.Orderly)
    (hkept : Kept TYPE_LIST (ListCounted filled c) w.disk) :
    Kept TYPE_LIST (ListCounted filled fun k v => c k v + op.pushed k v w) (op.run w).2.disk := by
  have hmono : Kept TYPE_LIST (ListCounted filled fun k v => c k v + op.pushed k v w) w.disk := by
    intro key m hm ht
    obtain ⟨l, hl, hlist⟩ := hkept key m hm ht
    exact ⟨l, hl, hlist.mono (Nat.le_add_right _ _)⟩
  refine kept_run (fun m hm => composite_of_type (.inr (.inr (.inr hm))))
    (fun d d' key m m' h => listCounted_untouched h) hw he hmono ?_
  rintro key op' rfl hkind htyped m' hm'
  cases op' with
  | push values left =>
    have hne : filled → values ≠ [] := fun hf => by simpa [Op.wellCalled, KeyOp.wellCalled] using hcall hf
    cases hlive : w.liveMeta key.1 with
    | some m =>
      obtain ⟨w', hload, hst, -⟩ := run_loadOrCreate_live hlive fun m =>
        m.setListBounds LIST_INITIAL_INDEX LIST_INITIAL_INDEX
      rw [htyped m hlive] at hload
      obtain ⟨l, -, hlist⟩ := hkept key m (readMeta_of_liveMeta hlive) (htyped m hlive)
      rw [show w.disk = w'.disk by rw [hst]] at hlist
      exact push_counted hload hlist le_rfl hne (hroom _ _) hm'
    | none =>
      have habs := hw.absent hlive
      obtain ⟨w', hload, hd⟩ := run_loadOrCreate_absent habs TYPE_LIST fun m =>
        m.setListBounds LIST_INITIAL_INDEX LIST_INITIAL_INDEX
      have hnew : Unused w'.disk key.1 w.nextIssue :=
        hd ▸ (hw.unused (show (KeyOp.push values left).creates from rfl) he habs).erase (metaKey key.1)
      exact push_counted hload (listMeta_new key.2 hnew) (Nat.zero_le _) hne (hroom _ _) hm'
  | pop count left => exact pop_counted hw hmono htyped hm'
  | _ => cases hkind

/-- The records of a list are those of its indexes. -/
theorem Spells.isSome_iff {d : Disk} {v head tail : UInt64} (h : Spells d k v head tail l) (field : Bytes) :
    d[subkey k v field]?.isSome ↔ ∃ index, head ≤ index ∧ index < tail ∧ field = listIndexField index := by
  have hiff : ∀ index : UInt64, d[elementKey k v index]?.isSome ↔ head ≤ index ∧ index < tail := by
    intro index
    have hwidth := h.width
    rw [h.element, UInt64.le_iff_toNat_le, UInt64.lt_iff_toNat_lt]
    split
    · rw [Option.isSome_iff_ne_none, ne_eq, List.getElem?_eq_none_iff]
      omega
    · simp only [Option.isSome_none, Bool.false_eq_true, false_iff]
      omega
  constructor
  · intro hsome
    obtain ⟨index, rfl⟩ := h.fields field hsome
    obtain ⟨hlow, hhigh⟩ := (hiff index).mp hsome
    exact ⟨index, hlow, hhigh, rfl⟩
  · rintro ⟨index, hlow, hhigh, rfl⟩
    exact (hiff index).mpr ⟨hlow, hhigh⟩

theorem listsKept_run {es : List Event} {c : Bytes → UInt64 → ℕ} (hes : Steps InOrder w es)
    (hroom : ∀ k v, c k v + pushes k v w es < 2 ^ 63) (hw : w.Orderly)
    (hkept : Kept TYPE_LIST (ListCounted True c) w.disk) :
    (w.after es).Orderly ∧
      Kept TYPE_LIST (ListCounted True fun k v => c k v + pushes k v w es) (w.after es).disk := by
  induction es generalizing w c with
  | nil => exact ⟨hw, hkept⟩
  | cons e es ih =>
    obtain ⟨he, hes⟩ := hes
    match e with
    | .failing op n => exact he.elim
    | .restart clock => exact he.elim
    | .run op =>
      have hsum : ∀ k v, c k v + pushes k v w (.run op :: es) =
          c k v + op.pushed k v w + pushes k v ((Event.run op).apply w) es := fun k v => (Nat.add_assoc _ _ _).symm
      simp only [hsum] at hroom ⊢
      refine ih hes hroom (orderly_step he.ascending hw) (listsKept_step he.ascending (fun _ => he.1) ?_ hw hkept)
      intro k v
      have := hroom k v
      omega

/-- In every state of a sequential run from an empty store that pushes fewer than `2^63`
elements to an incarnation of a list: a live list has its elements at the indexes from
`head` to `tail`, of which there are some, and acts as their sequence; an absent key acts as
the empty one. -/
theorem lists_refine_sequences (clock : Clock) (es : List Event)
    (hes : Steps InOrder (World.opened ∅ clock) es)
    (hpush : ∀ k v, pushes k v (World.opened ∅ clock) es < 2 ^ 63) (key : Key) :
    (∀ m, ((World.opened ∅ clock).after es).liveMeta key.1 = some m → m.typeId = TYPE_LIST →
      ∃ head tail l, m.listBounds = some (head, tail) ∧ head < tail ∧
        (∀ field, ((World.opened ∅ clock).after es).disk[subkey key.1 m.version field]?.isSome ↔
          ∃ index, head ≤ index ∧ index < tail ∧ field = listIndexField index) ∧
        Spells ((World.opened ∅ clock).after es).disk key.1 m.version head tail l ∧
        ActsAsList ((World.opened ∅ clock).after es) key m.expireMs l
          (pushes key.1 m.version (World.opened ∅ clock) es)) ∧
    (((World.opened ∅ clock).after es).liveMeta key.1 = none →
      ActsAsList ((World.opened ∅ clock).after es) key 0 [] 0) := by
  have hstart : Kept TYPE_LIST (ListCounted True fun _ _ => 0) (World.opened ∅ clock).disk := by
    intro key m hm
    rw [opened_eq, readMeta, ExtTreeMap.getElem?_empty] at hm
    cases hm
  obtain ⟨hw, hkept⟩ := listsKept_run hes (c := fun _ _ => 0) (by simpa using hpush) (orderly_opened clock) hstart
  simp only [Nat.zero_add] at hkept
  constructor
  · intro m hlive ht
    obtain ⟨l, hl, hlist⟩ := hkept key m (readMeta_of_liveMeta hlive) ht
    obtain ⟨head, tail, hb, hs, -⟩ := hlist.ends
    have hlt : head < tail := by
      rw [UInt64.lt_iff_toNat_lt, hs.width]
      have := List.length_pos_of_ne_nil (hl trivial)
      omega
    exact ⟨head, tail, l, hb, hlt, hs.isSome_iff, hs, actsAsList_live hlive hlist (hl trivial) (hpush _ _)⟩
  · intro hlive
    exact actsAsList_absent hw (hw.absent hlive)

end Lists

theorem Op.pushed_le (k : Bytes) (v : UInt64) (w : World) (key : Key) (values : List Bytes) (left : Bool) :
    (Op.keyed key (.push values left)).pushed k v w ≤ values.length := by
  rw [Op.pushed]
  split
  · exact le_rfl
  · exact Nat.zero_le _

/-- A list gets elements at both ends and loses one; another key stays out of it. -/
def listHistory : List Event :=
  [.run (.keyed Key.k (.push [[97], [98]] true)), .run (.keyed Key.k (.push [[99]] false)),
    .run (.keyed Key.k (.pop 1 true))]

theorem lists_refine_listHistory : Steps InOrder (World.opened ∅ (stillClock 7 5)) listHistory ∧
    (∃ l expireMs p, ActsAsList ((World.opened ∅ (stillClock 7 5)).after listHistory) Key.k expireMs l p) ∧
    ActsAsList ((World.opened ∅ (stillClock 7 5)).after listHistory) Key.l 0 [] 0 := by
  have hes : Steps InOrder (World.opened ∅ (stillClock 7 5)) listHistory :=
    ⟨inOrder_of_check rfl (by decide +kernel), inOrder_of_check rfl (by decide +kernel),
      inOrder_of_check rfl (by decide +kernel), trivial⟩
  have hpush : ∀ k v, pushes k v (World.opened ∅ (stillClock 7 5)) listHistory < 2 ^ 63 := by
    intro k v
    have hfirst := Op.pushed_le k v (World.opened ∅ (stillClock 7 5)) Key.k [[97], [98]] true
    have hsecond := Op.pushed_le k v ((Event.run (.keyed Key.k (.push [[97], [98]] true))).apply
      (World.opened ∅ (stillClock 7 5))) Key.k [[99]] false
    simp only [List.length_cons, List.length_nil] at hfirst hsecond
    simp only [listHistory, pushes]
    change _ + (_ + (0 + 0)) < _
    omega
  have hlive : (((World.opened ∅ (stillClock 7 5)).after listHistory).liveMeta Key.k.1).map Meta.typeId =
      some TYPE_LIST := by decide +kernel
  obtain ⟨m, hm, ht⟩ := Option.map_eq_some_iff.mp hlive
  obtain ⟨head, tail, l, -, -, -, -, hacts⟩ :=
    (lists_refine_sequences (stillClock 7 5) listHistory hes hpush Key.k).1 m hm ht
  exact ⟨hes, ⟨l, _, _, hacts⟩,
    (lists_refine_sequences (stillClock 7 5) listHistory hes hpush Key.l).2 (by decide +kernel)⟩

end GameStore
