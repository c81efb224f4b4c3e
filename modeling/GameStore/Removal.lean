import GameStore.Content

/-!
# Removing elements

How far `hdel`, `srem`, `zrem` and `pop` get by reading alone, and when what they
then do takes the key's last element. Taking it is the one case with two writes.
-/

namespace GameStore

open Lib Std

/-! ## The loops of `hdel`, `srem` and `zrem` -/

section Loops

variable {k : Bytes} {v : UInt64}

/-- The listed elements that have a record. -/
def found (d : Disk) (k : Bytes) (v : UInt64) (fields : List Bytes) : List Bytes :=
  fields.filter fun f => d[subkey k v f]?.isSome

/-- What a removal loop has gathered once it has found the elements `xs`. -/
structure Gathered (k : Bytes) (v : UInt64) (m : Meta) (xs : List Bytes) (t : Tally) : Prop where
  count : t.count.toNat = m.fieldCount.toNat - xs.length
  changed : t.changed = xs.length
  records : Records k v t.batch
  deletes : ∀ op ∈ t.batch, op.value = none
  all : ∀ x ∈ xs, ∃ op ∈ t.batch, op.key = subkey k v x

theorem gathered_foldl (ops : Bytes → WriteBatch) (hrec : ∀ x, Records k v (ops x))
    (hdel : ∀ x, ∀ op ∈ ops x, op.value = none) (hall : ∀ x, ∃ op ∈ ops x, op.key = subkey k v x)
    (m : Meta) (xs : List Bytes) :
    Gathered k v m xs (xs.foldl (fun t x => t.drop (ops x)) ⟨m.fieldCount, 0, []⟩) := by
  -- What is gathered last stands last in the batch.
  induction xs using List.reverseRecOn with
  | nil => exact ⟨rfl, rfl, Records.nil, by simp, by simp⟩
  | append_singleton xs x ih =>
    rw [List.foldl_append, List.foldl_cons, List.foldl_nil]
    set t : Tally := xs.foldl (fun t x => t.drop (ops x)) ⟨m.fieldCount, 0, []⟩
    refine ⟨?_, ?_, ih.records.append (hrec x), ?_, ?_⟩
    · have hc := ih.count
      rw [List.length_append, List.length_singleton]
      change (if t.count = 0 then 0 else t.count - 1).toNat = _
      split
      · rename_i h0
        rw [h0] at hc
        change 0 = _ at hc
        change 0 = _
        omega
      · rename_i h0
        have hpos : t.count.toNat ≠ 0 := fun h => h0 (UInt32.toNat_inj.mp h)
        have hle : (1 : UInt32) ≤ t.count := by
          rw [UInt32.le_iff_toNat_le]
          exact Nat.one_le_iff_ne_zero.mpr hpos
        rw [UInt32.toNat_sub_of_le _ _ hle, hc, UInt32.toNat_one]
        omega
    · change t.changed + 1 = _
      rw [ih.changed, List.length_append, List.length_singleton]
      push_cast
      rfl
    · intro op hop
      exact (List.mem_append.mp hop).elim (ih.deletes op) (hdel x op)
    · intro y hy
      obtain hy | hy := List.mem_append.mp hy
      · obtain ⟨op, hop, he⟩ := ih.all y hy
        exact ⟨op, List.mem_append_left _ hop, he⟩
      · obtain rfl := List.mem_singleton.mp hy
        obtain ⟨op, hop, he⟩ := hall y
        exact ⟨op, List.mem_append_right _ hop, he⟩

theorem foldl_drop_batch (ops : Bytes → WriteBatch) (xs : List Bytes) (t : Tally) :
    (xs.foldl (fun t x => t.drop (ops x)) t).batch = t.batch ++ xs.flatMap ops := by
  induction xs generalizing t with
  | nil => simp
  | cons x xs ih =>
    rw [List.foldl_cons, ih, List.flatMap_cons, ← List.append_assoc]
    rfl

theorem run_hdelSteps (fields : List Bytes) (t : Tally) (w : World) :
    (fields.foldlM (hdelStep k v) t).run exec w =
      (.ok ((found w.disk k v fields).foldl (fun t f => t.drop [.delete (subkey k v f)]) t), w) := by
  rw [found, List.foldl_filter]
  apply Prog.run_foldlM_reads
  intro t f
  have hget : exec (.get (subkey k v f)) w = (w.disk[subkey k v f]?, w) := rfl
  rw [hdelStep, Prog.perform_bind, Prog.run_call, hget]
  cases w.disk[subkey k v f]? <;> rfl

/-- The elements a loop with a `seen` set looks at. -/
def firsts : List Bytes → List Bytes → List Bytes
  | _, [] => []
  | seen, x :: xs => if x ∈ seen then firsts seen xs else x :: firsts (x :: seen) xs

theorem mem_firsts {seen xs : List Bytes} {x : Bytes} : x ∈ firsts seen xs ↔ x ∈ xs ∧ x ∉ seen := by
  induction xs generalizing seen with
  | nil => simp [firsts]
  | cons y xs ih =>
    rw [firsts]
    split
    · rename_i hy
      rw [ih, List.mem_cons]
      constructor
      · exact fun h => ⟨.inr h.1, h.2⟩
      · rintro ⟨rfl | h, hn⟩
        · exact absurd hy hn
        · exact ⟨h, hn⟩
    · rename_i hy
      rw [List.mem_cons, ih, List.mem_cons, List.mem_cons]
      constructor
      · rintro (rfl | ⟨h, hn⟩)
        · exact ⟨.inl rfl, hy⟩
        · exact ⟨.inr h, fun hs => hn (.inr hs)⟩
      · rintro ⟨h, hn⟩
        by_cases hxy : x = y
        · exact .inl hxy
        · exact .inr ⟨h.resolve_left hxy, fun hs => hs.elim hxy hn⟩

theorem firsts_nodup (seen xs : List Bytes) : (firsts seen xs).Nodup := by
  induction xs generalizing seen with
  | nil => exact List.nodup_nil
  | cons y xs ih =>
    rw [firsts]
    split
    · exact ih seen
    · refine List.nodup_cons.mpr ⟨fun h => ?_, ih _⟩
      exact (mem_firsts.mp h).2 (by simp)

theorem length_found_firsts (d : Disk) (xs : List Bytes) :
    (found d k v (firsts [] xs)).length = (found d k v xs.dedup).length := by
  have hperm : (firsts [] xs).Perm xs.dedup := by
    rw [List.perm_ext_iff_of_nodup (firsts_nodup [] xs) (List.nodup_dedup xs)]
    intro x
    simp [mem_firsts]
  exact (hperm.filter _).length_eq

theorem run_sremSteps (members seen : List Bytes) (t : Tally) (w : World) :
    ∃ seen', (members.foldlM (sremStep k v) (seen, t)).run exec w =
      (.ok (seen', (found w.disk k v (firsts seen members)).foldl
        (fun t x => t.drop [.delete (subkey k v x)]) t), w) := by
  induction members generalizing seen t with
  | nil => exact ⟨seen, rfl⟩
  | cons x members ih =>
    rw [List.foldlM_cons, firsts]
    by_cases hx : x ∈ seen
    · obtain ⟨seen', h⟩ := ih seen t
      refine ⟨seen', ?_⟩
      rw [if_pos hx, sremStep, if_pos hx]
      exact h
    · rw [if_neg hx, sremStep, if_neg hx]
      have hget : exec (.get (subkey k v x)) w = (w.disk[subkey k v x]?, w) := rfl
      dsimp only
      rw [Prog.perform_bind, Prog.call_bind, Prog.run_call, hget]
      cases hd : w.disk[subkey k v x]? with
      | none =>
        obtain ⟨seen', h⟩ := ih (x :: seen) t
        refine ⟨seen', ?_⟩
        rw [found, List.filter_cons_of_neg (by simp [hd])]
        exact h
      | some raw =>
        obtain ⟨seen', h⟩ := ih (x :: seen) (t.drop [.delete (subkey k v x)])
        refine ⟨seen', ?_⟩
        rw [found, List.filter_cons_of_pos (by simp [hd])]
        exact h

/-- The two records of a member that has one. -/
def memberDeletes (d : Disk) (k : Bytes) (v : UInt64) (x : Bytes) : WriteBatch :=
  [.delete (subkey k v x), .delete (zscoreKey k v (decodeScore (d[subkey k v x]?.getD [])) x)]

/-- The stored scores of the members decode. -/
def ScoresDecode (d : Disk) (k : Bytes) (v : UInt64) (xs : List Bytes) : Prop :=
  ∀ x ∈ xs, ∀ raw, d[subkey k v x]? = some raw → raw.length = 8

theorem run_zremSteps (members seen : List Bytes) (t : Tally) {w : World}
    (h : ScoresDecode w.disk k v (firsts seen members)) :
    ∃ seen', (members.foldlM (zremStep k v) (seen, t)).run exec w =
      (.ok (seen', (found w.disk k v (firsts seen members)).foldl
        (fun t x => t.drop (memberDeletes w.disk k v x)) t), w) := by
  induction members generalizing seen t with
  | nil => exact ⟨seen, rfl⟩
  | cons x members ih =>
    rw [firsts] at h
    rw [List.foldlM_cons, firsts]
    -- A member named twice is looked up once.
    by_cases hx : x ∈ seen
    · rw [if_pos hx] at h
      obtain ⟨seen', hrun⟩ := ih seen t h
      refine ⟨seen', ?_⟩
      rw [if_pos hx, zremStep, if_pos hx]
      exact hrun
    · rw [if_neg hx] at h
      rw [if_neg hx, zremStep, if_neg hx]
      have hrest : ScoresDecode w.disk k v (firsts (x :: seen) members) := fun y hy =>
        h y (List.mem_cons_of_mem _ hy)
      have hget : exec (.get (subkey k v x)) w = (w.disk[subkey k v x]?, w) := rfl
      dsimp only
      rw [Prog.perform_bind, Prog.call_bind, Prog.run_call, hget]
      cases hd : w.disk[subkey k v x]? with
      | none =>
        obtain ⟨seen', hrun⟩ := ih (x :: seen) t hrest
        refine ⟨seen', ?_⟩
        rw [found, List.filter_cons_of_neg (by simp [hd])]
        exact hrun
      | some raw =>
        obtain ⟨seen', hrun⟩ := ih (x :: seen) (t.drop (memberDeletes w.disk k v x)) hrest
        refine ⟨seen', ?_⟩
        rw [found, List.filter_cons_of_pos (by simp [hd])]
        dsimp only
        rw [decodeStoredScore, if_pos (h x List.mem_cons_self raw hd)]
        have hdel : memberDeletes w.disk k v x =
            [.delete (subkey k v x), .delete (zscoreKey k v (decodeScore raw) x)] := by
          rw [memberDeletes, hd]
          rfl
        rw [hdel] at hrun
        rw [List.foldl_cons, hdel]
        exact hrun

/-- A stored score that does not decode ends the loop. -/
theorem run_zremSteps_error (members seen : List Bytes) (t : Tally) {w : World}
    (h : ¬ ScoresDecode w.disk k v (firsts seen members)) :
    ∃ e, (members.foldlM (zremStep k v) (seen, t)).run exec w = (.error e, w) := by
  induction members generalizing seen t with
  | nil => exact absurd (fun x hx => nomatch hx) h
  | cons x members ih =>
    rw [firsts] at h
    rw [List.foldlM_cons]
    by_cases hx : x ∈ seen
    · rw [if_pos hx] at h
      rw [zremStep, if_pos hx]
      exact ih seen t h
    · rw [if_neg hx] at h
      rw [zremStep, if_neg hx]
      have hget : exec (.get (subkey k v x)) w = (w.disk[subkey k v x]?, w) := rfl
      dsimp only
      rw [Prog.perform_bind, Prog.call_bind, Prog.run_call, hget]
      cases hd : w.disk[subkey k v x]? with
      | none =>
        refine ih (x :: seen) t fun hrest => h ?_
        intro y hy raw hraw
        obtain rfl | hy := List.mem_cons.mp hy
        · rw [hd] at hraw
          cases hraw
        · exact hrest y hy raw hraw
      | some raw =>
        dsimp only
        -- The first stored score of another length ends the loop.
        by_cases hlen : raw.length = 8
        · rw [decodeStoredScore, if_pos hlen]
          refine ih (x :: seen) _ fun hrest => h ?_
          intro y hy raw' hraw
          obtain rfl | hy := List.mem_cons.mp hy
          · rw [hd] at hraw
            exact Option.some.inj hraw ▸ hlen
          · exact hrest y hy raw' hraw
        · rw [decodeStoredScore, if_neg hlen]
          exact ⟨_, rfl⟩

theorem scoresDecode_firsts {d : Disk} {xs : List Bytes} :
    ScoresDecode d k v (firsts [] xs) ↔ ScoresDecode d k v xs := by
  simp only [ScoresDecode, mem_firsts, List.not_mem_nil, not_false_eq_true, and_true]

end Loops

/-! ## Ending a removal -/

section Ending

variable {k : Bytes} {w : World} {m : Meta}

/-- Every element of a counted key goes. -/
def TakesAll (m : Meta) (xs : List Bytes) : Prop := xs ≠ [] ∧ m.fieldCount.toNat ≤ xs.length

theorem takesAll_firsts {d : Disk} {v : UInt64} {members : List Bytes} :
    TakesAll m (found d k v (firsts [] members)) ↔ TakesAll m (found d k v members.dedup) := by
  rw [TakesAll, TakesAll, ← List.length_pos_iff, ← List.length_pos_iff, length_found_firsts]

/-- Between two writes the elements of the key, `raw` among them, are deleted and
its metadata not yet. -/
def Strips (k : Bytes) (w : World) (p : StoreM Reply) (raw : Bytes) : Prop :=
  ∃ v recs n, Records k v recs ∧ (applyBatch w.disk recs)[raw]? = none ∧
    (Prog.after exec n p w).2.disk = applyBatch w.disk recs ∧
    (p.run exec w).2.disk = (applyBatch w.disk recs).erase (metaKey k)

/-- A removal that finds `xs` strips the key if they are all there is, and leaves
its metadata otherwise. -/
structure Outcome (k : Bytes) (w : World) (m : Meta) (p : StoreM Reply) (xs : List Bytes) : Prop where
  strips : TakesAll m xs → ∀ x ∈ xs, Strips k w p (subkey k m.version x)
  leaves : ¬ TakesAll m xs → w.disk[metaKey k]? ≠ none → (p.run exec w).2.disk[metaKey k]? ≠ none

theorem getElem?_deleted {b : WriteBatch} {raw : Bytes} (hdel : ∀ op ∈ b, op.value = none)
    (hmem : ∃ op ∈ b, op.key = raw) (d : Disk) : (applyBatch d b)[raw]? = none := by
  induction b using List.reverseRecOn with
  | nil => simp at hmem
  | append_singleton b op ih =>
    rw [getElem?_applyBatch_concat]
    split
    · exact hdel op (by simp)
    · rename_i hne
      refine ih (fun o ho => hdel o (List.mem_append_left _ ho)) ?_
      obtain ⟨o, ho, he⟩ := hmem
      obtain ho | ho := List.mem_append.mp ho
      · exact ⟨o, ho, he⟩
      · rw [List.mem_singleton.mp ho] at he
        exact absurd he hne

/-- The two writes of a removal that takes the last element. -/
theorem strips_of_reaches {α : Type} {v : UInt64} {recs : WriteBatch} {f : α → Reply} {a : α}
    {p : StoreM Reply} {w' : World} (hst : w'.toStore = w.toStore) (hr : Records k v recs)
    (hp : Prog.Reaches exec p w (f <$> (do
      engineWrite recs
      logicalDelete k
      pure a)) w') {raw : Bytes} (hraw : (applyBatch w.disk recs)[raw]? = none) : Strips k w p raw := by
  have hd : w'.disk = w.disk := by rw [hst]
  obtain ⟨n, hn⟩ := hp.trans (Prog.reaches_call exec _ _ _)
  refine ⟨v, recs, n, hr, hraw, ?_, ?_⟩
  · rw [hn]
    exact congrArg (applyBatch · recs) hd
  · rw [Prog.Reaches.run_eq hp]
    exact congrArg (fun d => (applyBatch d recs).erase (metaKey k)) hd

theorem finishRemoval_outcome {p : StoreM Reply} {w' : World} {xs : List Bytes} {t : Tally}
    (hst : w'.toStore = w.toStore) (ht : Gathered k m.version m xs t)
    (hp : Prog.Reaches exec p w (Reply.int <$> finishRemoval k m t) w') : Outcome k w m p xs := by
  have hpos : 0 < t.changed ↔ xs ≠ [] := by
    rw [ht.changed, Int.natCast_pos, List.length_pos_iff]
  have hzero : t.count = 0 ↔ m.fieldCount.toNat ≤ xs.length := by
    rw [← UInt32.toNat_inj, ht.count, UInt32.toNat_zero]
    omega
  rw [finishRemoval] at hp
  constructor
  · rintro ⟨hne, hle⟩ x hx
    rw [if_pos (hpos.mpr hne), if_pos (hzero.mpr hle)] at hp
    exact strips_of_reaches hst ht.records hp (getElem?_deleted ht.deletes (ht.all x hx) _)
  · intro hall hmeta
    rw [Prog.Reaches.run_eq hp]
    by_cases hne : xs = []
    · rw [if_neg (fun h => hpos.mp h hne)]
      change w'.disk[metaKey k]? ≠ none
      rw [hst]
      exact hmeta
    · rw [if_pos (hpos.mpr hne), if_neg (fun h => hall ⟨hne, hzero.mp h⟩)]
      change (applyBatch w'.disk _)[metaKey k]? ≠ none
      rw [getElem?_applyBatch_concat]
      exact fun h => nomatch (if_pos rfl).symm.trans h

/-- The end of a removal, run to its end. -/
theorem run_finishRemoval {xs : List Bytes} {t : Tally} (ht : Gathered k m.version m xs t) (w : World) :
    (finishRemoval k m t).run exec w = (.ok xs.length, if xs = [] then w
      else if m.fieldCount.toNat ≤ xs.length then
        { w with disk := (applyBatch w.disk t.batch).erase (metaKey k), versions := w.versions.erase k }
      else { w with disk := applyBatch w.disk (t.batch ++
        [.put (metaKey k) (m.setFieldCount (UInt32.ofNat (m.fieldCount.toNat - xs.length))).encode]) }) := by
  have hpos : 0 < t.changed ↔ xs ≠ [] := by
    rw [ht.changed, Int.natCast_pos, List.length_pos_iff]
  have hzero : t.count = 0 ↔ m.fieldCount.toNat ≤ xs.length := by
    rw [← UInt32.toNat_inj, ht.count, UInt32.toNat_zero]
    omega
  have hcount : t.count = UInt32.ofNat (m.fieldCount.toNat - xs.length) := by
    rw [← ht.count, UInt32.ofNat_toNat]
  rw [finishRemoval, ht.changed]
  rw [ht.changed] at hpos
  by_cases hne : xs = []
  · rw [if_neg (fun h => hpos.mp h hne), if_pos hne]
    rfl
  · rw [if_pos (hpos.mpr hne), if_neg hne]
    by_cases hle : m.fieldCount.toNat ≤ xs.length
    · rw [if_pos (hzero.mpr hle), if_pos hle]
      rfl
    · rw [if_neg (fun h => hle (hzero.mp h)), if_neg hle, hcount]
      rfl

/-- The common opening of the removals. -/
theorem reaches_typed {α : Type} {t : UInt8} (hlive : w.liveMeta k = some m) (ht : m.typeId = t)
    (f : Option Meta → StoreM α) (g : α → Reply) : ∃ w', w'.toStore = w.toStore ∧
      Prog.Reaches exec (g <$> (loadTyped k t >>= f)) w (g <$> f (some m)) w' := by
  obtain ⟨w', hload, hst, -⟩ := run_loadTyped_live hlive
  rw [ht] at hload
  refine ⟨w', hst, ?_⟩
  rw [Prog.map_eq, Prog.bind_assoc]
  exact Prog.reaches_bind exec hload _

theorem reaches_loop {α β : Type} {p : StoreM α} {a : α} (hp : p.run exec w = (.ok a, w))
    (f : α → StoreM β) (g : β → Reply) :
    Prog.Reaches exec (g <$> (p >>= f)) w (g <$> f a) w := by
  rw [Prog.map_eq, Prog.bind_assoc]
  exact Prog.reaches_bind exec hp _

theorem run_loop_err {α β : Type} {p : StoreM α} {e : EngineError} (hp : p.run exec w = (.error e, w))
    (f : α → StoreM β) (g : β → Reply) : (g <$> (p >>= f)).run exec w = (.error e, w) := by
  rw [Prog.run_map, Prog.run_bind_err _ hp]
  rfl

end Ending

/-! ## The loop of `pop` -/

section Pop

variable {k : Bytes} {v : UInt64}

/-- What the loop has done when it goes from `e` to `e'` with `n` pops wanted. -/
structure Popped (d : Disk) (k : Bytes) (v : UInt64) (n : ℕ) (e e' : Ends) (got : ℕ) : Prop where
  width : e'.tail.toNat - e'.head.toNat = e.tail.toNat - e.head.toNat - n
  order : e.head ≤ e.tail → e'.head ≤ e'.tail
  got : got = min n (e.tail.toNat - e.head.toNat)
  grows : ∀ op ∈ e.batch, op ∈ e'.batch
  adds : ∀ op ∈ e'.batch, op ∈ e.batch ∨ ∃ i, op = .delete (elementKey k v i)
  taken : ∀ i, e.head ≤ i → i < e.tail → (e'.head ≤ i ∧ i < e'.tail) ∨
    d[elementKey k v i]?.isSome ∧ .delete (elementKey k v i) ∈ e'.batch

/-- One pop, at the head or at the tail. -/
def PopsAt (e e₁ : Ends) (index : UInt64) : Prop :=
  e₁.head = e.head + 1 ∧ e₁.tail = e.tail ∧ index = e.head ∨
    e₁.head = e.head ∧ e₁.tail = e.tail - 1 ∧ index = e.tail - 1

theorem PopsAt.toNat {e e₁ : Ends} {index : UInt64} (hlt : e.head < e.tail) (h : PopsAt e e₁ index) :
    e₁.head.toNat = e.head.toNat + 1 ∧ e₁.tail.toNat = e.tail.toNat ∧ index.toNat = e.head.toNat ∨
      e₁.head.toNat = e.head.toNat ∧ e₁.tail.toNat = e.tail.toNat - 1 ∧
        index.toNat = e.tail.toNat - 1 := by
  rw [UInt64.lt_iff_toNat_lt] at hlt
  have hbound := e.tail.toNat_lt
  have hhead : (e.head + 1).toNat = e.head.toNat + 1 := by
    rw [UInt64.toNat_add, UInt64.toNat_one]
    omega
  have htail : (e.tail - 1).toNat = e.tail.toNat - 1 := by
    rw [UInt64.toNat_sub_of_le _ _ (UInt64.le_iff_toNat_le.mpr (by rw [UInt64.toNat_one]; omega)),
      UInt64.toNat_one]
  refine Or.imp ?_ ?_ h
  · rintro ⟨h₁, h₂, h₃⟩
    rw [h₁, h₂, h₃, hhead]
    exact ⟨rfl, rfl, rfl⟩
  · rintro ⟨h₁, h₂, h₃⟩
    rw [h₁, h₂, h₃, htail]
    exact ⟨rfl, rfl, rfl⟩

/-- One pop, then the rest. -/
theorem Popped.step {d : Disk} {n got : ℕ} {e e₁ e' : Ends} {index : UInt64} (hlt : e.head < e.tail)
    (hends : PopsAt e e₁ index)
    (hbatch : e₁.batch = e.batch ++ [.delete (elementKey k v index)])
    (hread : d[elementKey k v index]?.isSome) (h : Popped d k v n e₁ e' got) :
    Popped d k v (n + 1) e e' (got + 1) := by
  have hnat := hends.toNat hlt
  rw [UInt64.lt_iff_toNat_lt] at hlt
  have hdelete : .delete (elementKey k v index) ∈ e'.batch := h.grows _ (by simp [hbatch])
  refine ⟨?_, fun _ => h.order ?_, ?_, fun op hop => h.grows op (by simp [hbatch, hop]), ?_, ?_⟩
  · rw [h.width]
    omega
  · rw [UInt64.le_iff_toNat_le]
    omega
  · rw [h.got]
    omega
  · intro op hop
    obtain hop | hop := h.adds op hop
    · rw [hbatch] at hop
      exact (List.mem_append.mp hop).imp id fun hop => ⟨index, List.mem_singleton.mp hop⟩
    · exact .inr hop
  · intro i hlo hhi
    by_cases hi : i = index
    · exact .inr ⟨hi ▸ hread, hi ▸ hdelete⟩
    · have hne : i.toNat ≠ index.toNat := fun hn => hi (UInt64.toNat_inj.mp hn)
      rw [UInt64.le_iff_toNat_le] at hlo
      rw [UInt64.lt_iff_toNat_lt] at hhi
      refine h.taken i ?_ ?_
      · rw [UInt64.le_iff_toNat_le]
        omega
      · rw [UInt64.lt_iff_toNat_lt]
        omega

theorem run_popLoop (left : Bool) (n : ℕ) (e : Ends) (out : List Bytes) (w : World) :
    ∃ r, (popLoop k v left n e out).run exec w = (r, w) ∧ match r with
      | .ok (e', out') => ∃ got, out'.length = out.length + got ∧ Popped w.disk k v n e e' got
      | .error _ => ∃ i, e.head ≤ i ∧ i < e.tail ∧ w.disk[elementKey k v i]? = none := by
  induction n generalizing e out with
  | zero =>
    exact ⟨_, rfl, 0, rfl, rfl, id, by simp, fun _ => id, fun _ => .inl,
      fun i hlo hhi => .inl ⟨hlo, hhi⟩⟩
  | succ n ih =>
    rw [popLoop]
    by_cases hlt : e.head < e.tail
    · rw [if_pos hlt]
      dsimp only
      -- The element at the end that is popped.
      set index := if left then e.head else e.tail - 1 with hindex
      set e₁ : Ends := if left
        then ⟨e.head + 1, e.tail, e.batch ++ [.delete (elementKey k v index)]⟩
        else ⟨e.head, e.tail - 1, e.batch ++ [.delete (elementKey k v index)]⟩ with he₁
      have hends : PopsAt e e₁ index := by
        rw [he₁, hindex]
        cases left with
        | true => exact .inl ⟨rfl, rfl, rfl⟩
        | false => exact .inr ⟨rfl, rfl, rfl⟩
      have hbatch : e₁.batch = e.batch ++ [.delete (elementKey k v index)] := by
        rw [he₁]
        split <;> rfl
      have hnat := hends.toNat hlt
      have hlt' := UInt64.lt_iff_toNat_lt.mp hlt
      have hget : exec (.get (elementKey k v index)) w = (w.disk[elementKey k v index]?, w) := rfl
      rw [readElement, Prog.perform_bind, Prog.call_bind, Prog.run_call, hget]
      cases hd : w.disk[elementKey k v index]? with
      | none =>
        refine ⟨_, rfl, index, ?_, ?_, hd⟩
        · rw [UInt64.le_iff_toNat_le]
          omega
        · rw [UInt64.lt_iff_toNat_lt]
          omega
      | some value =>
        obtain ⟨r, hrun, hr⟩ := ih e₁ (out ++ [value])
        refine ⟨r, hrun, ?_⟩
        cases r with
        | error err =>
          obtain ⟨i, hlo, hhi, hmiss⟩ := hr
          rw [UInt64.le_iff_toNat_le] at hlo
          rw [UInt64.lt_iff_toNat_lt] at hhi
          refine ⟨i, ?_, ?_, hmiss⟩
          · rw [UInt64.le_iff_toNat_le]
            omega
          · rw [UInt64.lt_iff_toNat_lt]
            omega
        | ok res =>
          obtain ⟨e', out'⟩ := res
          obtain ⟨got, hlen, hpop⟩ := hr
          refine ⟨got + 1, ?_, hpop.step hlt hends hbatch (by rw [hd]; rfl)⟩
          rw [hlen, List.length_append, List.length_singleton]
          omega
    · rw [if_neg hlt]
      refine ⟨_, rfl, 0, rfl, ?_, id, ?_, fun _ => id, fun _ => .inl, fun i hlo hhi => ?_⟩
      · rw [UInt64.lt_iff_toNat_lt] at hlt
        omega
      · rw [UInt64.lt_iff_toNat_lt] at hlt
        omega
      · exact absurd (UInt64.lt_of_le_of_lt hlo hhi) hlt

/-- What `pop` does once its loop has ended. -/
def finishPop (k : Bytes) (m : Meta) (e : Ends) (out : List Bytes) : StoreM (List Bytes) := do
  if out.isEmpty then pure out
  else if e.head = e.tail then do
    engineWrite e.batch
    logicalDelete k
    pure out
  else do
    engineWrite (e.batch ++ [.put (metaKey k) (m.setListBounds e.head e.tail).encode])
    pure out

/-- Every element of a list is there and goes. -/
def PopsAll (d : Disk) (k : Bytes) (v head tail : UInt64) (count : ℕ) : Prop :=
  head < tail ∧ tail.toNat - head.toNat ≤ count ∧
    ∀ i, head ≤ i → i < tail → d[elementKey k v i]?.isSome

structure PopOutcome (k : Bytes) (w : World) (m : Meta) (p : StoreM Reply) (head tail : UInt64)
    (count : ℕ) : Prop where
  strips : PopsAll w.disk k m.version head tail count → Strips k w p (elementKey k m.version head)
  leaves : ¬ PopsAll w.disk k m.version head tail count → w.disk[metaKey k]? ≠ none →
    (p.run exec w).2.disk[metaKey k]? ≠ none

/-- The loop has taken everything exactly when its ends meet. -/
theorem Popped.popsAll_iff {d : Disk} {count : ℕ} {head tail : UInt64} {e : Ends} {out : List Bytes}
    (h : Popped d k v count ⟨head, tail, []⟩ e out.length) :
    PopsAll d k v head tail count ↔ out ≠ [] ∧ e.head = e.tail := by
  have hwidth := h.width
  have hgot := h.got
  dsimp only at hwidth hgot
  rw [← List.length_pos_iff]
  constructor
  · rintro ⟨hlt, hle, -⟩
    have horder := UInt64.le_iff_toNat_le.mp (h.order (UInt64.le_of_lt hlt))
    have hlt := UInt64.lt_iff_toNat_lt.mp hlt
    refine ⟨by omega, UInt64.toNat_inj.mp (by omega)⟩
  · rintro ⟨hpos, hends⟩
    have hwidth' : tail.toNat - head.toNat - count = 0 := by
      rw [← hwidth, hends, Nat.sub_self]
    refine ⟨UInt64.lt_iff_toNat_lt.mpr (by omega), by omega, fun i hlo hhi => ?_⟩
    obtain ⟨hlo', hhi'⟩ | ⟨hsome, -⟩ := h.taken i hlo hhi
    · exact absurd (hends ▸ UInt64.lt_of_le_of_lt hlo' hhi') (UInt64.lt_irrefl _)
    · exact hsome

theorem finishPop_outcome (hk : k.length < 2 ^ 32) {w w' : World} {m : Meta} {p : StoreM Reply}
    {count : ℕ} {head tail : UInt64} {e : Ends} {out : List Bytes} (hst : w'.toStore = w.toStore)
    (hpop : Popped w.disk k m.version count ⟨head, tail, []⟩ e out.length)
    (hp : Prog.Reaches exec p w (Reply.values <$> finishPop k m e out) w') :
    PopOutcome k w m p head tail count := by
  have hd : w'.disk = w.disk := by rw [hst]
  have hiff := hpop.popsAll_iff
  rw [finishPop] at hp
  constructor
  · intro hall
    obtain ⟨hne, hends⟩ := hiff.mp hall
    rw [if_neg (by simpa using hne), if_pos hends] at hp
    have hdeletes : ∀ op ∈ e.batch, ∃ i, op = .delete (elementKey k m.version i) := fun op hop =>
      (hpop.adds op hop).resolve_left (by simp)
    have hr : Records k m.version e.batch := by
      intro op hop
      obtain ⟨i, rfl⟩ := hdeletes op hop
      exact parseOwnerVersion_subkey hk _ _
    refine strips_of_reaches hst hr hp (getElem?_deleted (fun op hop => ?_) ?_ _)
    · obtain ⟨i, rfl⟩ := hdeletes op hop
      rfl
    · obtain ⟨hlo, hhi⟩ | ⟨-, hmem⟩ := hpop.taken head (UInt64.le_refl _) hall.1
      · exact absurd (hends ▸ UInt64.lt_of_le_of_lt hlo hhi) (UInt64.lt_irrefl _)
      · exact ⟨_, hmem, rfl⟩
  · intro hnot hmeta
    rw [hp.run_eq]
    by_cases hne : out = []
    · rw [if_pos (by simpa using hne)]
      change w'.disk[metaKey k]? ≠ none
      rw [hd]
      exact hmeta
    · rw [if_neg (by simpa using hne), if_neg fun hends => hnot (hiff.mpr ⟨hne, hends⟩)]
      change (applyBatch w'.disk _)[metaKey k]? ≠ none
      rw [getElem?_applyBatch_concat]
      exact fun h => nomatch (if_pos rfl).symm.trans h

end Pop

end GameStore
