import GameStore.Lib.Linearize
import GameStore.Conduct
import GameStore.Isolation
import GameStore.Refinement
import GameStore.Sharing

/-!
# Many clients on one store

Any number of operations are under way at once, each of them on one key and on its own
connection. What they share besides the records is the version clock alone, and an
operation goes to it at most once. So operations on different keys cannot be told from
operations one after the other, whatever the order of their calls.
-/

namespace GameStore

open Lib

deriving instance DecidableEq for Call

/-! ## The calls of one key -/

/-- The calls an operation on `k` may make. -/
def Call.Within (k : Bytes) : Call → Prop
  | .get key => Reachable k key
  | .write batch => ∀ op ∈ batch, Reachable k op.key
  | .scanPrefix pre => ∀ raw, pre <+: raw → Reachable k raw
  | .versionsSet key _ => key = k
  | .versionsRemove key => key = k
  | .nextVersion => True
  | .nowMs => True
  | _ => False

theorem Records.reachable {k : Bytes} {v : UInt64} {recs : WriteBatch} (h : Records k v recs) :
    ∀ op ∈ recs, Reachable k op.key := fun op hop => .inr ⟨v, h op hop⟩

theorem within_write_put {k raw : Bytes} {v : UInt64} {recs : WriteBatch} (h : Records k v recs) :
    Call.Within k (.write (recs ++ [.put (metaKey k) raw])) := by
  intro op hop
  obtain hop | hop := List.mem_append.mp hop
  · exact h.reachable op hop
  · rw [List.mem_singleton.mp hop]
    exact .inl rfl

theorem within_write_delete (k : Bytes) : Call.Within k (.write [.delete (metaKey k)]) := by
  intro op hop
  rw [List.mem_singleton.mp hop]
  exact .inl rfl

theorem Move.within {k : Bytes} (hk : k.length < 2 ^ 32) {ph ph' : Phase} {o : Call} {a : o.Ans}
    (h : Move k ph o a ph') : o.Within k := by
  cases h with
  | missing => exact .inl rfl
  | undecodable hd => exact .inl rfl
  | load hd he => exact .inl rfl
  | loadDue hd he => exact .inl rfl
  | read hm hraw => exact .inr ⟨_, hraw⟩
  | readNew hraw => exact .inr ⟨_, hraw⟩
  | @scan m pre l hm hp =>
    refine fun raw hpre => .inr ⟨m.version, parseOwnerVersion_eq_some.mpr ⟨hk, ?_⟩⟩
    obtain rfl | rfl := hp
    · exact .inl hpre
    · exact .inr hpre
  | expire => exact within_write_delete k
  | delete => exact within_write_delete k
  | deleteEmptied => exact within_write_delete k
  | update hr hm ht hv => exact within_write_put hr
  | writeNew hr hm hv he => exact within_write_put hr
  | writeString hm => exact within_write_put (v := 0) Records.nil
  | strip hr hm => exact hr.reachable
  | _ => trivial

/-- Calls of different keys conflict on the version clock only. -/
theorem Call.Within.apart {k k' : Bytes} (hne : k ≠ k') {o o' : Call} (ho : o.Within k) (ho' : o'.Within k') :
    o = .nextVersion ∧ o' = .nextVersion ∨ Commutes execOn o o' := by
  have hapart : ∀ {raw raw'}, Reachable k raw → Reachable k' raw' → raw ≠ raw' := by
    rintro raw raw' hraw hraw' rfl
    exact hne (hraw.key_eq hraw')
  by_cases hconf : o.conflicts o' = true
  · left
    cases o <;> cases o' <;> first | exact ⟨rfl, rfl⟩ | exact ho.elim | exact ho'.elim | cases hconf | skip
    case write.write b b' =>
      simp only [Call.conflicts, List.any_eq_true, beq_iff_eq] at hconf
      obtain ⟨op, hop, op', hop', he⟩ := hconf
      exact absurd he (hapart (ho op hop) (ho' op' hop'))
    case write.get b key =>
      simp only [Call.conflicts, List.any_eq_true, beq_iff_eq] at hconf
      obtain ⟨op, hop, he⟩ := hconf
      exact absurd he (hapart (ho op hop) ho')
    case get.write key b =>
      simp only [Call.conflicts, List.any_eq_true, beq_iff_eq] at hconf
      obtain ⟨op, hop, he⟩ := hconf
      exact absurd he.symm (hapart ho (ho' op hop))
    case write.scanPrefix b pre =>
      simp only [Call.conflicts, List.any_eq_true, List.isPrefixOf_iff_prefix] at hconf
      obtain ⟨op, hop, hpre⟩ := hconf
      exact absurd rfl (hapart (ho op hop) (ho' _ hpre))
    case scanPrefix.write pre b =>
      simp only [Call.conflicts, List.any_eq_true, List.isPrefixOf_iff_prefix] at hconf
      obtain ⟨op, hop, hpre⟩ := hconf
      exact absurd rfl (hapart (ho _ hpre) (ho' op hop))
    all_goals
      simp only [Call.conflicts, beq_iff_eq] at hconf
      obtain rfl := ho
      obtain rfl := ho'
      exact absurd hconf hne
  · exact .inr (commutes_of_not_conflicts o o' hconf)

/-! ## One version at most -/

/-- The phases before a version is issued. -/
def Phase.unissued : Phase → Prop
  | .start | .loaded _ | .expired _ | .dropping .due | .absent | .overwriting | .untracked => True
  | _ => False

theorem Move.not_unissued {k : Bytes} {ph ph' : Phase} {o : Call} {a : o.Ans} (h : Move k ph o a ph')
    (hph : ¬ ph.unissued ∨ o = .nextVersion) : ¬ ph'.unissued := by
  obtain hph | rfl := hph
  · cases h with
    | @drop why =>
      cases why with
      | due => exact absurd trivial hph
      | deleted => exact id
      | emptied => exact id
    | _ => first | exact id | exact absurd trivial hph
  · cases h <;> exact id

theorem Move.issues {k : Bytes} {ph ph' : Phase} {a : UInt64} (h : Move k ph .nextVersion a ph') :
    ph.unissued := by
  cases h <;> trivial

/-! ## Operations as processes -/

variable {ι : Type}

abbrev Running := Process Call Call.Ans EngineError Reply Clock

/-- An operation on `k` that is under way. -/
def UnderWay (k : Bytes) (p : Running) : Prop :=
  ∃ ph, Obeys False k (fun _ _ => True) ph p.rest ∧ (∀ o ∈ p.made, o.Within k) ∧
    (.nextVersion ∈ p.made → ¬ ph.unissued)

/-- The call an operation makes next, and what becomes of the operation. -/
theorem UnderWay.move {k : Bytes} {made : List Call} {own : Clock} {o : Call}
    {next : o.Ans → StoreM Reply} (hp : UnderWay k ⟨made, own, .call o next⟩) (a : o.Ans) :
    ∃ ph ph', Move k ph o a ph' ∧ (.nextVersion ∈ made → ¬ ph.unissued) ∧
      Obeys False k (fun _ _ => True) ph' (next a) := by
  obtain ⟨ph, hobeys, hmade, hissued⟩ := hp
  obtain ⟨ph', hmove, hobeys'⟩ := hobeys a (possible_of_not_fresh k ph o a)
  exact ⟨ph, ph', hmove, hissued, hobeys'⟩

theorem UnderWay.next_within {k : Bytes} (hk : k.length < 2 ^ 32) {p : Running} (hp : UnderWay k p)
    {o : Call} (ho : p.next = some o) : o.Within k := by
  obtain ⟨next, he⟩ := Process.next_eq_some ho
  obtain ⟨a⟩ := o.ans_nonempty
  rw [he] at hp
  obtain ⟨ph, ph', hmove, -, -⟩ := hp.move a
  exact hmove.within hk

theorem UnderWay.once {k : Bytes} {p : Running} (hp : UnderWay k p) (hissued : .nextVersion ∈ p.made) :
    p.next ≠ some .nextVersion := by
  intro ho
  obtain ⟨next, he⟩ := Process.next_eq_some ho
  rw [he] at hp
  obtain ⟨ph, ph', hmove, hlate, -⟩ := hp.move 0
  exact hlate hissued hmove.issues

theorem UnderWay.step {k : Bytes} (hk : k.length < 2 ^ 32) {p : Running} (hp : UnderWay k p) (s : Store) :
    UnderWay k (p.step execOn s).1 := by
  cases ho : p.next with
  | none =>
    rw [Process.step_of_next_none execOn ho]
    exact hp
  | some o =>
    have hwithin := hp.next_within hk ho
    obtain ⟨next, he⟩ := Process.next_eq_some ho
    rw [he] at hp ⊢
    obtain ⟨ph, ph', hmove, hissued, hobeys⟩ := hp.move (execOn o (p.own, s)).1
    refine ⟨ph', hobeys, fun o' ho' => ?_, fun ho' => ?_⟩
    · obtain ho' | ho' := List.mem_append.mp ho'
      · obtain ⟨-, -, hmade, -⟩ := hp
        exact hmade o' ho'
      · rw [List.mem_singleton.mp ho']
        exact hwithin
    · apply hmove.not_unissued
      exact (List.mem_append.mp ho').imp hissued fun h => (List.mem_singleton.mp h).symm

theorem underWay_disciplined (key : ι → Key) :
    Disciplined execOn (fun i => (key i).1) .nextVersion fun i (p : Running) => UnderWay (key i).1 p where
  step i p s hp := hp.step (key i).2 s
  once i p hp hissued := hp.once hissued
  apart i j p q hp hq hne o ho o' ho' := by
    obtain ⟨-, -, hmade, -⟩ := hq
    exact (hp.next_within (key i).2 ho).apart hne (hmade o' ho')

/-- No operation ends without a call. -/
theorem KeyOp.calls_first (op : KeyOp) (k : Bytes) (clock : Clock) :
    (Process.begin clock (op.prog k)).next ≠ none := by
  cases op <;> exact Option.some_ne_none _

/-! ## Concurrent operations -/

section Clients

variable [DecidableEq ι] (key : ι → Key) (op : ι → KeyOp) (clock : ι → Clock)

/-- The operations, each on its key and with its clock, under a schedule of their calls. -/
def sharedRun (s : Store) (sched : List ι) : Pool ι Call Call.Ans EngineError Reply Clock Store :=
  (Pool.begin clock (fun i => (op i).prog (key i).1) s).run execOn sched

/-- No operation begins while another one on its key is under way. -/
def KeysInTurn (s : Store) (sched : List ι) : Prop :=
  Meets (Pool.step execOn) (Pool.Exclusive fun i => (key i).1)
    (Pool.begin clock (fun i => (op i).prog (key i).1) s) sched

/-- The replies and the last store when the operations run one after the other. -/
def serially : List ι → Store → List (Except EngineError Reply) × Store
  | [], s => ([], s)
  | i :: order, s =>
    let r := (Op.keyed (key i) (op i)).run ⟨s, clock i⟩
    (r.1 :: (serially order r.2.toStore).1, (serially order r.2.toStore).2)

omit [DecidableEq ι] in
theorem serially_eq_inTurn (order : List ι) (s : Store) :
    serially key op clock order s = Pool.inTurn execOn clock (fun i => (op i).prog (key i).1) order s := by
  induction order generalizing s with
  | nil => rfl
  | cons i order ih =>
    simp only [serially, Pool.inTurn, run_execOn, ih]
    rfl

/-- The operations in the order of the calls for which they count. -/
theorem exists_order (s : Store) (sched : List ι) (hturn : KeysInTurn key op clock s sched)
    (r : ι → Except EngineError Reply) (hr : ∀ i, ((sharedRun key op clock s sched).proc i).result = some (r i)) :
    ∃ order : List ι, order.Nodup ∧ (∀ i, i ∈ order) ∧
      Pool.inTurn execOn clock (fun i => (op i).prog (key i).1) order s =
        (order.map r, (sharedRun key op clock s sched).shared) ∧
      ∀ pre post i j, sched = pre ++ post → i ∉ post → j ∉ pre → Before order i j := by
  refine Pool.linearizes (underWay_disciplined key) (fun i => ?_) (fun i => ?_) hturn hr
  · refine ⟨(op i).begins, ?_, ?_, ?_⟩
    · exact (KeyOp.obeys (key i).2 (op i)).mono fun _ _ _ => trivial
    · intro o ho
      cases ho
    · intro ho
      cases ho
  · exact (op i).calls_first (key i).1 (clock i)

/-- Any number of operations on single keys, in any order of their calls in which no two on
one key overlap: some order of whole operations gives the same replies and leaves the same
store, and in it comes first what had ended before the other began. The operations on the
whole store (`DBSIZE`, `RAWCOUNT`, `COMPACT`, `FLUSHALL`) are not among them. -/
theorem operations_linearize (s : Store) (sched : List ι) (hturn : KeysInTurn key op clock s sched)
    (r : ι → Except EngineError Reply) (hr : ∀ i, ((sharedRun key op clock s sched).proc i).result = some (r i)) :
    ∃ order : List ι, order.Nodup ∧ (∀ i, i ∈ order) ∧
      serially key op clock order s = (order.map r, (sharedRun key op clock s sched).shared) ∧
      ∀ pre post i j, sched = pre ++ post → i ∉ post → j ∉ pre → Before order i j := by
  obtain ⟨order, hnd, hall, hserial, htime⟩ := exists_order key op clock s sched hturn r hr
  rw [← serially_eq_inTurn] at hserial
  exact ⟨order, hnd, hall, hserial, htime⟩

end Clients

/-! ## Clients of a keyspace -/

section Issue

variable {k : Bytes} {w : World}

/-- Until it issues its version an operation leaves both clocks of versions alone; after
that the version clock is at what it issued. -/
theorem issued_sound (k : Bytes) (w : World) : Prog.Sound exec (Possible False k) (Move k) fun ph s =>
    s.versionClock = w.versionClock ∧ s.micros = w.micros ∨
      ¬ ph.unissued ∧ s.versionClock = w.nextIssue ∧ s.micros = w.micros.tail where
  answers ph s o _ := possible_of_not_fresh k ph o _
  keeps ph s o ph' hs hmove := by
    by_cases ho : o = .nextVersion
    · subst ho
      obtain ⟨hclock, hmicros⟩ | ⟨hlate, -⟩ := hs
      · refine .inr ⟨hmove.not_unissued (.inr rfl), nextIssue_congr hmicros hclock, ?_⟩
        exact congrArg Stream'.tail hmicros
      · exact absurd hmove.issues hlate
    · have hstill : (exec o s).2.versionClock = s.versionClock ∧ (exec o s).2.micros = s.micros := by
        cases o <;> first | exact ⟨rfl, rfl⟩ | exact absurd rfl ho
      rw [hstill.1, hstill.2]
      exact hs.imp id fun ⟨hlate, hissued⟩ => ⟨hmove.not_unissued (.inl hlate), hissued⟩

/-- An operation issues one version or none. -/
theorem KeyOp.run_clocks (op : KeyOp) (key : Key) (w : World) :
    ((Op.keyed key op).run w).2.versionClock = w.versionClock ∧ ((Op.keyed key op).run w).2.micros = w.micros ∨
      ((Op.keyed key op).run w).2.versionClock = w.nextIssue ∧
        ((Op.keyed key op).run w).2.micros = w.micros.tail := by
  obtain ⟨ph, -, hclocks⟩ := (KeyOp.obeys key.2 op).run (issued_sound key.1 w) (.inl ⟨rfl, rfl⟩)
  exact hclocks.imp id And.right

/-- The version clock and the clock of every client are at most `n`. -/
structure IssuedBelow (clock : ι → Clock) (n : ℕ) (s : Store) : Prop where
  versionClock : s.versionClock.toNat ≤ n
  micros : ∀ i, (clock i).micros.head.toNat ≤ n

variable {clock : ι → Clock} {n : ℕ} {s : Store}

theorem IssuedBelow.nextIssue_le (h : IssuedBelow clock n s) (hn : n + 1 < 2 ^ 64) (i : ι) :
    (World.nextIssue ⟨s, clock i⟩).toNat ≤ n + 1 := by
  have hnext : World.nextIssue ⟨s, clock i⟩ =
      if s.versionClock + 1 ≤ (clock i).micros.head then (clock i).micros.head else s.versionClock + 1 := rfl
  have hclock := h.versionClock
  have hmicros := h.micros i
  have hone : (1 : UInt64).toNat = 1 := rfl
  rw [hnext]
  split
  · omega
  · rw [UInt64.toNat_add]
    omega

theorem IssuedBelow.room (h : IssuedBelow clock n s) (hn : n + 2 < 2 ^ 64) (i : ι) :
    World.nextIssue ⟨s, clock i⟩ < World.nextIssue ⟨s, clock i⟩ + 1 := by
  have hle := h.nextIssue_le (by omega) i
  have hone : (1 : UInt64).toNat = 1 := rfl
  rw [UInt64.lt_iff_toNat_lt, UInt64.toNat_add]
  omega

theorem IssuedBelow.run (h : IssuedBelow clock n s) (hn : n + 1 < 2 ^ 64) (op : KeyOp) (key : Key) (i : ι) :
    IssuedBelow clock (n + 1) ((Op.keyed key op).run ⟨s, clock i⟩).2.toStore where
  versionClock := by
    obtain ⟨hv, -⟩ | ⟨hv, -⟩ := op.run_clocks key ⟨s, clock i⟩
    · rw [hv]
      exact h.versionClock.trans (Nat.le_succ n)
    · rw [hv]
      exact h.nextIssue_le hn i
  micros j := by
    have := h.micros j
    omega

end Issue

section Serially

variable {key : ι → Key} {op : ι → KeyOp} {clock : ι → Clock}

/-- The store holds the keyspace, whoever looks at the clock next. -/
def RefinesForAll (clock : ι → Clock) (p : ℕ) (s : Store) (ks : Keyspace) : Prop :=
  ∀ i, Refines p ⟨s, clock i⟩ ks

/-- An operation of one client leaves the store as ready for the others as for itself. -/
theorem RefinesForAll.step {p n : ℕ} {s : Store} {ks : Keyspace} (h : RefinesForAll clock p s ks)
    (hclock : IssuedBelow clock n s) (hn : n + 2 < 2 ^ 64) {i : ι} (hproper : (op i).Proper (key i))
    (hfit : (ks.step (clock i).moment (.keyed (key i) (op i))).2.Fits)
    (hroom : p + (op i).pushCount < 2 ^ 63) :
    (ks.step (clock i).moment (.keyed (key i) (op i))).1 =
        some ((Op.keyed (key i) (op i)).run ⟨s, clock i⟩).1 ∧
      RefinesForAll clock (p + (op i).pushCount) ((Op.keyed (key i) (op i)).run ⟨s, clock i⟩).2.toStore
        (ks.step (clock i).moment (.keyed (key i) (op i))).2 := by
  have hissue : World.nextIssue ⟨s, clock i⟩ < World.nextIssue ⟨s, clock i⟩ + 1 := hclock.room hn i
  obtain ⟨hreply, hleft⟩ := (h i).step (show Op.Proper (.keyed (key i) (op i)) from hproper) hissue hfit hroom
  refine ⟨congrArg some (hreply _ rfl).symm, fun j => ⟨hleft.keys, hleft.agrees, ?_⟩⟩
  intro v hv
  -- If the operation issued a version, the next one of `j` will be above that.
  have habove : ((Op.keyed (key i) (op i)).run ⟨s, clock i⟩).2.versionClock = World.nextIssue ⟨s, clock i⟩ →
      World.nextIssue ⟨s, clock i⟩ <
        World.nextIssue ⟨((Op.keyed (key i) (op i)).run ⟨s, clock i⟩).2.toStore, clock j⟩ := by
    intro hc
    apply UInt64.lt_of_lt_of_le hissue
    rw [← hc]
    exact World.versionClock_succ_le ⟨((Op.keyed (key i) (op i)).run ⟨s, clock i⟩).2.toStore, clock j⟩
  obtain ⟨ph, -, hstage⟩ := (op i).run_stage (key i) ⟨s, clock i⟩
  obtain hold | ⟨rfl, hc⟩ := hstage.onDisk hv
  · obtain ⟨hc, -⟩ | ⟨hc, -⟩ := (op i).run_clocks (key i) ⟨s, clock i⟩
    · have hnext : World.nextIssue ⟨((Op.keyed (key i) (op i)).run ⟨s, clock i⟩).2.toStore, clock j⟩ =
          World.nextIssue ⟨s, clock j⟩ := nextIssue_congr rfl hc
      rw [hnext]
      exact (h j).ahead v hold
    · exact UInt64.lt_trans ((h i).ahead v hold) (habove hc)
  · exact habove hc

/-- What the clients ask, each at its moment. -/
def asked (key : ι → Key) (op : ι → KeyOp) (clock : ι → Clock) (order : List ι) : List (Moment × Op) :=
  order.map fun i => ((clock i).moment, .keyed (key i) (op i))

theorem RefinesForAll.serially {p n : ℕ} {s : Store} {ks : Keyspace} {order : List ι}
    (h : RefinesForAll clock p s ks) (hclock : IssuedBelow clock n s) (hn : n + order.length + 1 < 2 ^ 64)
    (hproper : ∀ i, (op i).Proper (key i)) (hsmall : ks.StaysSmall (asked key op clock order))
    (hroom : p + (order.map fun i => (op i).pushCount).sum < 2 ^ 63) :
    ks.replies (asked key op clock order) = (serially key op clock order s).1.map some ∧
      RefinesForAll clock (p + (order.map fun i => (op i).pushCount).sum) (serially key op clock order s).2
        (ks.after (asked key op clock order)) := by
  induction order generalizing p n s ks with
  | nil => exact ⟨rfl, h⟩
  | cons i order ih =>
    rw [List.map_cons, List.sum_cons] at hroom ⊢
    rw [List.length_cons] at hn
    rw [← Nat.add_assoc] at hroom ⊢
    obtain ⟨hfit, hsmall⟩ := hsmall
    obtain ⟨hreply, hleft⟩ := h.step hclock (by omega) (hproper i) hfit (by omega)
    obtain ⟨hreplies, hend⟩ := ih hleft (hclock.run (by omega) (op i) (key i) i) (by omega) hsmall hroom
    refine ⟨?_, hend⟩
    rw [GameStore.serially, List.map_cons, ← hreplies, ← hreply]
    rfl

/-- Clients whose operations are on single keys, those on one key without overlap, see a
keyspace that answers one request after the other, each between its first and its last
call. Their operations are proper: no hash field is listed twice, no list is empty and no
score or bound is not a number. There is room: for a version each above the store's and the
clients' clocks, below `2^32` elements in a collection, and below `2^63` pushed values. -/
theorem clients_see_keyspace [Fintype ι] [DecidableEq ι] {p n c : ℕ} {s : Store} {ks : Keyspace}
    (h : RefinesForAll clock p s ks) (hclock : IssuedBelow clock n s) (hn : n + Fintype.card ι + 1 < 2 ^ 64)
    (hproper : ∀ i, (op i).Proper (key i)) (hcount : ∀ (k : Bytes) e, ks[k]? = some e → e.value.counter ≤ c)
    (hlisted : c + ∑ i, (op i).listed < 2 ^ 32) (hroom : p + ∑ i, (op i).pushCount < 2 ^ 63)
    {sched : List ι} (hturn : KeysInTurn key op clock s sched) {r : ι → Except EngineError Reply}
    (hr : ∀ i, ((sharedRun key op clock s sched).proc i).result = some (r i)) :
    ∃ order : List ι, order.Nodup ∧ (∀ i, i ∈ order) ∧
      ks.replies (asked key op clock order) = order.map (fun i => some (r i)) ∧
      RefinesForAll clock (p + ∑ i, (op i).pushCount) (sharedRun key op clock s sched).shared
        (ks.after (asked key op clock order)) ∧
      ∀ pre post i j, sched = pre ++ post → i ∉ post → j ∉ pre → Before order i j := by
  obtain ⟨order, hnd, hall, hserial, htime⟩ := exists_order key op clock s sched hturn r hr
  rw [← serially_eq_inTurn] at hserial
  have huniv : order.toFinset = Finset.univ := Finset.eq_univ_iff_forall.mpr fun i => List.mem_toFinset.mpr (hall i)
  have hsum : ∀ f : ι → ℕ, (order.map f).sum = ∑ i, f i := by
    intro f
    rw [← huniv, List.sum_toFinset f hnd]
  have hlength : order.length = Fintype.card ι := by
    rw [← List.toFinset_card_of_nodup hnd, huniv, Finset.card_univ]
  have hsmall : ks.StaysSmall (asked key op clock order) := by
    apply staysSmall_of_listed hcount
    rw [asked, List.map_map]
    exact lt_of_eq_of_lt (congrArg (c + ·) (hsum fun i => (op i).listed)) hlisted
  have hrun := h.serially hclock (by omega) hproper hsmall (by rwa [hsum])
  rw [hserial, hsum, List.map_map] at hrun
  exact ⟨order, hnd, hall, hrun.1, hrun.2, htime⟩

end Serially

/-! ## Three clients -/

/-- A hash is built and, when that is done, loses its only field; meanwhile somebody else
builds a set. -/
def threeKeys (i : Fin 3) : Key := if i = 1 then Key.l else Key.k

def threeOps : Fin 3 → KeyOp := ![.hset [([102], [49])], .sadd [[120], [121]], .hdel [[102]]]

def threeTurns : List (Fin 3) := [0, 1, 1, 0, 1, 0, 0, 1, 0, 1, 2, 1, 2, 2, 2, 2]

theorem operations_linearize_threeClients :
    KeysInTurn threeKeys threeOps (fun _ => stillClock 7 5) (World.opened ∅ (stillClock 7 5)).toStore threeTurns ∧
      ∃ order : List (Fin 3), order.Nodup ∧ (∀ i, i ∈ order) ∧ Before order 0 2 ∧
        serially threeKeys threeOps (fun _ => stillClock 7 5) order (World.opened ∅ (stillClock 7 5)).toStore =
          (order.map ![.ok (.int 1), .ok (.int 2), .ok (.int 1)], (sharedRun threeKeys threeOps
            (fun _ => stillClock 7 5) (World.opened ∅ (stillClock 7 5)).toStore threeTurns).shared) := by
  have hturn : KeysInTurn threeKeys threeOps (fun _ => stillClock 7 5)
      (World.opened ∅ (stillClock 7 5)).toStore threeTurns := by
    unfold KeysInTurn
    decide +kernel
  obtain ⟨order, hnd, hall, hserial, htime⟩ := operations_linearize threeKeys threeOps _ _ threeTurns hturn
    ![.ok (.int 1), .ok (.int 2), .ok (.int 1)] (by decide +kernel)
  refine ⟨hturn, order, hnd, hall, ?_, hserial⟩
  exact htime [0, 1, 1, 0, 1, 0, 0, 1, 0, 1] [2, 1, 2, 2, 2, 2] 0 2 rfl (by decide) (by decide)

theorem clients_see_keyspace_threeClients :
    ∃ order : List (Fin 3), order.Nodup ∧ Before order 0 2 ∧
      Keyspace.replies ∅ (asked threeKeys threeOps (fun _ => stillClock 7 5) order) =
        order.map fun i => some (![.ok (.int 1), .ok (.int 2), .ok (.int 1)] i) := by
  have hempty : RefinesForAll (fun _ : Fin 3 => stillClock 7 5) 0 (World.opened ∅ (stillClock 7 5)).toStore ∅ := by
    intro i
    exact refines_opened (stillClock 7 5)
  have hclock : IssuedBelow (fun _ : Fin 3 => stillClock 7 5) 7 (World.opened ∅ (stillClock 7 5)).toStore :=
    ⟨by decide +kernel, by decide +kernel⟩
  have hturn : KeysInTurn threeKeys threeOps (fun _ => stillClock 7 5)
      (World.opened ∅ (stillClock 7 5)).toStore threeTurns := by
    unfold KeysInTurn
    decide +kernel
  have hproper : ∀ i, (threeOps i).Proper (threeKeys i) := by
    intro i
    fin_cases i
    · exact ⟨rfl, by simp [threeOps, Op.distinct], trivial, trivial⟩
    · exact ⟨rfl, trivial, trivial, trivial⟩
    · exact ⟨rfl, by simp [threeOps, Op.distinct], trivial, trivial⟩
  have hcount : ∀ (k : Bytes) e, (∅ : Keyspace)[k]? = some e → e.value.counter ≤ 0 := by
    intro k e he
    rw [Std.ExtTreeMap.getElem?_empty] at he
    cases he
  obtain ⟨order, hnd, -, hreplies, -, htime⟩ := clients_see_keyspace hempty hclock (by decide) hproper hcount
    (by decide) (by decide) hturn (r := ![.ok (.int 1), .ok (.int 2), .ok (.int 1)]) (by decide +kernel)
  refine ⟨order, hnd, ?_, hreplies⟩
  exact htime [0, 1, 1, 0, 1, 0, 0, 1, 0, 1] [2, 1, 2, 2, 2, 2] 0 2 rfl (by decide) (by decide)

end GameStore
