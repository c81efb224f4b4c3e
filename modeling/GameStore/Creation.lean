import GameStore.Loading

/-!
# Creating a key and reading it back

`hset`, `sadd`, `zadd` and `push` on an absent key, under a version no record of
the key carries: what they write, and that a read right after returns just that.
-/

namespace GameStore

open Lib Std

/-! ## Records of a new incarnation -/

section New

variable {k : Bytes} {v : UInt64} {d : Disk}

/-- No record of the key carries the version. -/
def Unused (d : Disk) (k : Bytes) (v : UInt64) : Prop := ∀ raw, RecordOf k v raw → d[raw]? = none

theorem Unused.erase (h : Unused d k v) (key : Bytes) : Unused (d.erase key) k v := by
  intro raw hraw
  rw [getElem?_erase_bytes, h raw hraw, ite_self]

theorem getElem?_record_putMeta (d : Disk) (recs : WriteBatch) (m : Meta) {raw : Bytes}
    (hraw : RecordOf k v raw) : (applyBatch d (recs ++ [.put (metaKey k) m.encode]))[raw]? =
      (applyBatch d recs)[raw]? := by
  rw [getElem?_applyBatch_concat]
  exact if_neg (hraw.ne_metaKey k).symm

/-- The state after the one write that creates a key. -/
def afterCreation (w : World) (k : Bytes) (recs : WriteBatch) (m : Meta) : World :=
  { w with disk := applyBatch w.disk (recs ++ [.put (metaKey k) m.encode]) }

/-- A loop that finds every element it looks at to be new. -/
theorem foldl_add {β : Type} (ops : β → WriteBatch) (xs : List β) (t : Tally) :
    xs.foldl (fun t x => t.add (ops x)) t =
      ⟨t.count + UInt32.ofNat xs.length, t.changed + xs.length, t.batch ++ xs.flatMap ops⟩ := by
  induction xs generalizing t with
  | nil => simp
  | cons x xs ih =>
    rw [List.foldl_cons, ih]
    simp only [Tally.add, List.length_cons, List.flatMap_cons, List.append_assoc, UInt32.ofNat_add]
    congr 1
    · rw [UInt32.add_assoc, UInt32.add_comm 1]
      rfl
    · push_cast
      omega

/-! ## Sets -/

/-- A step of `sadd` that finds no record. -/
def saddNew (k : Bytes) (v : UInt64) (st : List Bytes × Tally) (member : Bytes) : List Bytes × Tally :=
  if member ∈ st.1 then st else (member :: st.1, st.2.add [.put (subkey k v member) []])

theorem run_saddStep_new (hk : k.length < 2 ^ 32) {w : World} (h : Unused w.disk k v)
    (st : List Bytes × Tally) (member : Bytes) :
    (saddStep k v st member).run exec w = (.ok (saddNew k v st member), w) := by
  unfold saddStep saddNew
  split
  · rfl
  · have hget : exec (.get (subkey k v member)) w = (none, w) :=
      congrArg (·, w) (h _ (parseOwnerVersion_subkey hk v member))
    rw [Prog.perform_bind, Prog.run_call, hget]
    rfl

/-- What the loop of `sadd` has gathered when it has seen `seen`. -/
def addedTally (k : Bytes) (v : UInt64) (seen : List Bytes) : Tally :=
  ⟨UInt32.ofNat seen.length, seen.length, fieldPuts k v (seen.reverse.map (·, []))⟩

theorem foldl_saddNew (members seen : List Bytes) : ∃ seen',
    members.foldl (saddNew k v) (seen, addedTally k v seen) = (seen', addedTally k v seen') ∧
      ∀ x, x ∈ seen' ↔ x ∈ seen ∨ x ∈ members := by
  induction members generalizing seen with
  | nil => exact ⟨seen, rfl, by simp⟩
  | cons member members ih =>
    rw [List.foldl_cons, saddNew]
    split
    · rename_i hm
      obtain ⟨seen', he, hmem⟩ := ih seen
      refine ⟨seen', he, fun x => ?_⟩
      rw [hmem x, List.mem_cons]
      constructor
      · exact Or.imp id .inr
      · rintro (hx | rfl | hx)
        · exact .inl hx
        · exact .inl hm
        · exact .inr hx
    · have hadd : (addedTally k v seen).add [.put (subkey k v member) []] =
          addedTally k v (member :: seen) := by
        simp [addedTally, Tally.add, fieldPuts, UInt32.ofNat_add]
      obtain ⟨seen', he, hmem⟩ := ih (member :: seen)
      refine ⟨seen', by rw [hadd]; exact he, fun x => ?_⟩
      rw [hmem x, List.mem_cons, List.mem_cons]
      tauto

theorem run_sadd_new (hk : k.length < 2 ^ 32) {w w' : World} {members : List Bytes}
    (hne : members ≠ []) (hload : (loadOrCreate k TYPE_SET fun m => m.setFieldCount 0).run exec w =
      (.ok ((newMeta TYPE_SET v).setFieldCount 0), w')) (hnew : Unused w'.disk k v) :
    ∃ seen : List Bytes, (∀ x, x ∈ seen ↔ x ∈ members) ∧ (sadd k members).run exec w =
      (.ok seen.length, afterCreation w' k (fieldPuts k v (seen.reverse.map (·, [])))
        ((newMeta TYPE_SET v).setFieldCount (UInt32.ofNat seen.length))) := by
  obtain ⟨seen, hfold, hmem⟩ := foldl_saddNew (k := k) (v := v) members []
  have hseen : ∀ x, x ∈ seen ↔ x ∈ members := fun x => by simpa using hmem x
  refine ⟨seen, hseen, ?_⟩
  have hpos : 0 < (seen, addedTally k v seen).2.changed := by
    obtain ⟨x, hx⟩ := List.exists_mem_of_ne_nil _ hne
    exact Int.natCast_pos.mpr (List.length_pos_of_mem ((hseen x).mpr hx))
  have hcount : ((newMeta TYPE_SET v).setFieldCount 0).fieldCount = 0 :=
    Meta.fieldCount_setFieldCount rfl 0
  have hloop := Prog.run_foldlM_reads exec (run_saddStep_new hk hnew) members ([], addedTally k v [])
  rw [hfold] at hloop
  rw [sadd, Prog.run_bind_ok _ hload]
  have hstart : (⟨((newMeta TYPE_SET v).setFieldCount 0).fieldCount, 0, []⟩ : Tally) =
      addedTally k v [] := by rw [hcount]; rfl
  have hver : ((newMeta TYPE_SET v).setFieldCount 0).version = v := rfl
  rw [hstart, hver, Prog.run_bind_ok _ hloop, if_pos hpos]
  rfl

/-! ## Sorted sets -/

/-- The two records of a member. -/
def memberPuts (k : Bytes) (v : UInt64) (p : Bytes × F64) : WriteBatch :=
  [.put (subkey k v p.1) (encodeScore p.2), .put (zscoreKey k v p.2 p.1) []]

theorem run_zaddStep_new (hk : k.length < 2 ^ 32) {w : World} (h : Unused w.disk k v) (t : Tally)
    (p : Bytes × F64) : (zaddStep k v t p).run exec w = (.ok (t.add (memberPuts k v p)), w) := by
  have hget : exec (.get (subkey k v p.1)) w = (none, w) :=
    congrArg (·, w) (h _ (parseOwnerVersion_subkey hk v p.1))
  rw [zaddStep, Prog.perform_bind, Prog.run_call, hget]
  rfl

theorem run_zadd_new (hk : k.length < 2 ^ 32) {w w' : World} {pairs : List (F64 × Bytes)}
    (hne : pairs ≠ []) (hload : (loadOrCreate k TYPE_ZSET fun m => m.setFieldCount 0).run exec w =
      (.ok ((newMeta TYPE_ZSET v).setFieldCount 0), w')) (hnew : Unused w'.disk k v) :
    (zadd k pairs).run exec w = (.ok (effectivePairs pairs).length, afterCreation w' k
      ((effectivePairs pairs).flatMap (memberPuts k v))
      ((newMeta TYPE_ZSET v).setFieldCount (UInt32.ofNat (effectivePairs pairs).length))) := by
  have hcount : ((newMeta TYPE_ZSET v).setFieldCount 0).fieldCount = 0 :=
    Meta.fieldCount_setFieldCount rfl 0
  have hver : ((newMeta TYPE_ZSET v).setFieldCount 0).version = v := rfl
  have hloop := Prog.run_foldlM_reads exec (run_zaddStep_new hk hnew) (effectivePairs pairs) ⟨0, 0, []⟩
  rw [foldl_add] at hloop
  rw [zadd, Prog.run_bind_ok _ hload, hcount, hver, Prog.run_bind_ok _ hloop]
  have hbatch : ((effectivePairs pairs).flatMap (memberPuts k v)).isEmpty = false := by
    obtain ⟨p, rest, hp⟩ := List.exists_cons_of_ne_nil (effectivePairs_ne_nil hne)
    rw [hp]
    rfl
  simp only [List.nil_append, hbatch, Bool.false_eq_true, if_false, Int.zero_add, UInt32.zero_add]
  rfl

/-! ## Lists -/

/-- Values stored one by one, the `i`-th at index `at i`. -/
def numbered (index : ℕ → UInt64) (values : List Bytes) : List (Bytes × Bytes) :=
  values.zipIdx.map fun p => (listIndexField (index p.2), p.1)

/-- Where `push` puts its `i`-th value. -/
def pushIndex (left : Bool) (base : UInt64) (i : ℕ) : UInt64 :=
  if left then base - 1 - UInt64.ofNat i else base + UInt64.ofNat i

theorem foldl_pushStep (left : Bool) (values : List Bytes) (e : Ends) :
    values.foldl (pushStep k v left) e =
      ⟨if left then e.head - UInt64.ofNat values.length else e.head,
        if left then e.tail else e.tail + UInt64.ofNat values.length,
        e.batch ++ fieldPuts k v
          (numbered (pushIndex left (if left then e.head else e.tail)) values)⟩ := by
  induction values using List.reverseRecOn with
  | nil => simp [numbered, fieldPuts]
  | append_singleton values value ih =>
    have hsplit : ∀ index, fieldPuts k v (numbered index (values ++ [value])) =
        fieldPuts k v (numbered index values) ++
          [.put (elementKey k v (index values.length)) value] := by
      intro index
      simp [numbered, fieldPuts, elementKey, List.zipIdx_append]
    rw [List.foldl_append, ih, List.foldl_cons, List.foldl_nil, pushStep, hsplit]
    cases left with
    | true =>
      have hhead : e.head - UInt64.ofNat values.length - 1 = e.head - UInt64.ofNat (values.length + 1) := by
        rw [UInt64.ofNat_add]
        grind
      have hindex : e.head - UInt64.ofNat values.length - 1 = pushIndex true e.head values.length := by
        simp only [pushIndex, if_true]
        grind
      simp only [if_true, List.length_append, List.length_singleton, ← hhead, ← hindex, List.append_assoc]
    | false =>
      have htail : e.tail + UInt64.ofNat values.length + 1 = e.tail + UInt64.ofNat (values.length + 1) := by
        rw [UInt64.ofNat_add]
        grind
      simp only [Bool.false_eq_true, if_false, List.length_append, List.length_singleton, ← htail,
        List.append_assoc]
      rfl

theorem run_push_new {w w' : World} (values : List Bytes) (left : Bool)
    (hload : (loadOrCreate k TYPE_LIST fun m =>
      m.setListBounds LIST_INITIAL_INDEX LIST_INITIAL_INDEX).run exec w =
      (.ok ((newMeta TYPE_LIST v).setListBounds LIST_INITIAL_INDEX LIST_INITIAL_INDEX), w')) :
    ∃ n, (push k values left).run exec w = (.ok n, afterCreation w' k
      (fieldPuts k v (numbered (pushIndex left LIST_INITIAL_INDEX) values))
      ((newMeta TYPE_LIST v).setListBounds
        (if left then LIST_INITIAL_INDEX - UInt64.ofNat values.length else LIST_INITIAL_INDEX)
        (if left then LIST_INITIAL_INDEX else LIST_INITIAL_INDEX + UInt64.ofNat values.length))) := by
  have hbounds := Meta.listBounds_setListBounds (m := newMeta TYPE_LIST v) rfl LIST_INITIAL_INDEX
    LIST_INITIAL_INDEX
  have hver : ((newMeta TYPE_LIST v).setListBounds LIST_INITIAL_INDEX LIST_INITIAL_INDEX).version = v :=
    rfl
  rw [push, Prog.run_bind_ok _ hload, hbounds, hver]
  simp only [foldl_pushStep, List.nil_append, ite_self]
  exact ⟨_, rfl⟩

end New

end GameStore
