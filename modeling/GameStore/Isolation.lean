import GameStore.Content

/-!
# Keys do not see each other

All keys share one flat space of records. An operation on one of them changes
nothing a read of another one returns, and neither its reply nor what it leaves
depends on the others.
-/

namespace GameStore

open Lib

theorem Reachable.key_eq {k k' raw : Bytes} (h : Reachable k raw) (h' : Reachable k' raw) : k = k' := by
  obtain rfl | ⟨v, hv⟩ := h
  · obtain he | ⟨v', hv'⟩ := h'
    · exact metaKey_inj.mp he
    · exact absurd rfl (hv'.ne_metaKey k)
  · obtain rfl | ⟨v', hv'⟩ := h'
    · exact absurd rfl (hv.ne_metaKey k')
    · have hown := hv.symm.trans hv'
      simp only [Option.some.injEq, Prod.mk.injEq] at hown
      exact hown.1

theorem KeyOp.run_getElem?_of_ne (key : Key) (op : KeyOp) {k raw : Bytes} (hne : key.1 ≠ k)
    (hraw : Reachable k raw) (w : World) :
    ((Op.keyed key op).run w).2.disk[raw]? = w.disk[raw]? :=
  op.run_getElem?_foreign key (fun h => hne (Reachable.key_eq (.inl h) hraw))
    (fun v h => hne (Reachable.key_eq (.inr ⟨v, h⟩) hraw)) w

/-! ## Reads issue no version -/

/-- The phases of an operation that only reads. -/
def Phase.reading : Phase → Prop
  | .start | .loaded _ | .live _ | .expired _ | .dropping .due | .absent => True
  | _ => False

theorem Move.not_reading {k : Bytes} {ph ph' : Phase} {o : Call} {a : o.Ans} (h : Move k ph o a ph')
    (hph : ¬ ph.reading) : ¬ ph'.reading := by
  cases h with
  | @drop why =>
    cases why with
    | due => exact absurd trivial hph
    | deleted => exact id
    | emptied => exact id
  | _ => first | exact id | exact absurd trivial hph

theorem Call.ans_nonempty (o : Call) : Nonempty o.Ans := by
  cases o <;> exact ⟨default⟩

/-- Once an operation has issued a version or written, only one that is allowed to
can still end. -/
theorem not_obeys_of_not_reading {k : Bytes} {α : Type} {al : Allowed} (hw : ¬ al.writes)
    (he : ¬ al.empties) (hl : ¬ al.leaves) (ph : Phase) (p : StoreM α) (hph : ¬ ph.reading) :
    ¬ Obeys False k (Settles al) ph p := by
  induction p generalizing ph with
  | ok a =>
    intro h
    cases ph <;> first | exact hph trivial | exact hw h | exact he h | exact hl h | exact h
  | err e =>
    intro h
    cases ph <;> first | exact hph trivial | exact hw h | exact he h | exact hl h | exact h
  | call o next ih =>
    intro h
    obtain ⟨a⟩ := o.ans_nonempty
    obtain ⟨ph', hmove, hn⟩ := h a (possible_of_not_fresh k ph o a)
    exact ih a ph' (hmove.not_reading hph) hn

theorem exec_versionClock {o : Call} (ho : o ≠ .nextVersion) (w : World) (c : UInt64) :
    exec o { w with versionClock := c } = ((exec o w).1, { (exec o w).2 with versionClock := c }) := by
  cases o <;> first | rfl | exact absurd rfl ho

/-- A read does not depend on the version clock. -/
theorem KeyOp.run_read_versionClock (key : Key) {op : KeyOp} (hop : op.isRead) (w : World) (c : UInt64) :
    ((Op.keyed key op).run { w with versionClock := c }).1 = ((Op.keyed key op).run w).1 := by
  have hobeys : Obeys False key.1 (Settles (op.allowed False)) op.begins (op.prog key.1) := op.obeys key.2
  have hwrites : ¬ (op.allowed False).writes := fun h => nomatch hop.symm.trans h
  have hempties : ¬ (op.allowed False).empties := by
    cases op <;> first | exact id | cases hop
  have hleaves : ¬ (op.allowed False).leaves := by
    cases op <;> first | exact id | cases hop
  have hreads := hobeys.within (I := Phase.reading) fun ph p =>
    not_obeys_of_not_reading hwrites hempties hleaves ph p
  refine (hreads.run_congr (S := fun s t => t = { s with versionClock := c })
    (fun ph _ o => possible_of_not_fresh key.1 ph o _) ?_ rfl).1
  rintro ph s t o ph' rfl ⟨hmove, hread⟩
  have ho : o ≠ .nextVersion := by
    rintro rfl
    cases hmove <;> exact hread
  rw [exec_versionClock ho]
  exact ⟨rfl, rfl⟩

/-! ## Isolation -/

/-- The same store, looked at when the clock is `clock`. -/
def World.at (w : World) (clock : Clock) : World := { w with toClock := clock }

/-- Outside what is reachable from `k` the two stores are the same. -/
structure DifferOnlyAt (k : Bytes) (s t : World) : Prop where
  clock : t.toClock = s.toClock
  versionClock : t.versionClock = s.versionClock
  disk : ∀ raw, ¬ Reachable k raw → t.disk[raw]? = s.disk[raw]?

theorem DifferOnlyAt.alikeAt {k k' : Bytes} {s t : World} (h : DifferOnlyAt k' s t) (hne : k ≠ k') :
    AlikeAt k s t where
  clock := h.clock
  versionClock := h.versionClock
  disk raw hraw := h.disk raw fun hraw' => hne (hraw.key_eq hraw')

/-- In every state of the store and for every two keys: what an operation on one
does, no read of the other can see, at any time; and what it returns and leaves
at its own key is the same whatever the other key holds. -/
theorem keys_isolated (w : World) (key key' : Key) (hne : key ≠ key') (op : KeyOp) :
    (∀ clock read, read.isRead →
      ((Op.keyed key' read).run (((Op.keyed key op).run w).2.at clock)).1 =
        ((Op.keyed key' read).run (w.at clock)).1) ∧
    ∀ w', DifferOnlyAt key'.1 w w' →
      ((Op.keyed key op).run w').1 = ((Op.keyed key op).run w).1 ∧
        ∀ raw, Reachable key.1 raw →
          ((Op.keyed key op).run w').2.disk[raw]? = ((Op.keyed key op).run w).2.disk[raw]? := by
  have hval : key.1 ≠ key'.1 := fun h => hne (Subtype.ext h)
  constructor
  · intro clock read hread
    have halike : AlikeAt key'.1
        { w.at clock with versionClock := ((Op.keyed key op).run w).2.versionClock }
        (((Op.keyed key op).run w).2.at clock) :=
      ⟨rfl, rfl, fun raw hraw => op.run_getElem?_of_ne key hval hraw w⟩
    rw [read.run_alike key' halike, read.run_read_versionClock key' hread]
  · intro w' hw'
    obtain ⟨hreply, hleft⟩ := op.run_alikeAt key (hw'.alikeAt hval)
    exact ⟨hreply, hleft.disk⟩

/-- A hash and a set under two keys. -/
def hashAndSet : World :=
  (World.opened ∅ (stillClock 7 5)).after
    [.run (.keyed Key.k (.hset [([102], [118])])), .run (.keyed Key.l (.sadd [[120]]))]

theorem keys_isolated_hashAndSet : Key.k ≠ Key.l ∧
    ((Op.keyed Key.l .smembers).run (((Op.keyed Key.k (.hdel [[102]])).run hashAndSet).2.at
      (stillClock 9 6))).1 = ((Op.keyed Key.l .smembers).run (hashAndSet.at (stillClock 9 6))).1 := by
  have hne : Key.k ≠ Key.l := by decide
  exact ⟨hne, (keys_isolated hashAndSet Key.k Key.l hne (.hdel [[102]])).1 (stillClock 9 6) .smembers rfl⟩

end GameStore
