import GameStore.Loading

/-!
# What reads see

The replies of an operation depend on the metadata and the records of its own
key only, and those of a read on a key that is absent not even on these.
-/

namespace GameStore

open Lib Std

/-! ## One key's part of the store -/

/-- A record an operation on `k` can reach. -/
def Reachable (k raw : Bytes) : Prop := raw = metaKey k ∨ ∃ v, RecordOf k v raw

/-- Two worlds that an operation on `k` cannot tell apart. -/
structure AlikeAt (k : Bytes) (s t : World) : Prop where
  clock : t.toClock = s.toClock
  versionClock : t.versionClock = s.versionClock
  disk : ∀ raw, Reachable k raw → t.disk[raw]? = s.disk[raw]?

theorem getElem?_applyBatch_congr {d d' : Disk} (b : WriteBatch) {raw : Bytes}
    (h : d'[raw]? = d[raw]?) : (applyBatch d' b)[raw]? = (applyBatch d b)[raw]? := by
  induction b using List.reverseRecOn with
  | nil => exact h
  | append_singleton b op ih => rw [getElem?_applyBatch_concat, getElem?_applyBatch_concat, ih]

theorem AlikeAt.nextIssue_eq {k : Bytes} {s t : World} (h : AlikeAt k s t) :
    t.nextIssue = s.nextIssue := nextIssue_congr (by rw [h.clock]) h.versionClock

theorem alikeAt_move {k : Bytes} (hk : k.length < 2 ^ 32) {s t : World} {ph ph' : Phase} {o : Call}
    {a : o.Ans} (h : AlikeAt k s t) (hmove : Move k ph o a ph') :
    (exec o t).1 = (exec o s).1 ∧ AlikeAt k (exec o s).2 (exec o t).2 := by
  have hmeta : t.disk[metaKey k]? = s.disk[metaKey k]? := h.disk _ (.inl rfl)
  have htick : (exec .nowMs t).1 = (exec .nowMs s).1 ∧
      AlikeAt k (exec .nowMs s).2 (exec .nowMs t).2 := by
    refine ⟨congrArg (fun c : Clock => c.ms.head) h.clock, ?_, h.versionClock, h.disk⟩
    exact congrArg (fun c : Clock => Clock.mk c.ms.tail c.micros) h.clock
  have hissue : (exec .nextVersion t).1 = (exec .nextVersion s).1 ∧
      AlikeAt k (exec .nextVersion s).2 (exec .nextVersion t).2 := by
    refine ⟨h.nextIssue_eq, ?_, h.nextIssue_eq, h.disk⟩
    exact congrArg (fun c : Clock => Clock.mk c.ms c.micros.tail) h.clock
  have hwrite : ∀ b, AlikeAt k (exec (.write b) s).2 (exec (.write b) t).2 := fun b =>
    ⟨h.clock, h.versionClock, fun raw hraw => getElem?_applyBatch_congr b (h.disk raw hraw)⟩
  have hmap : ∀ vs vt, AlikeAt k { s with versions := vs } { t with versions := vt } := fun _ _ =>
    ⟨h.clock, h.versionClock, h.disk⟩
  -- A call answers from the records of the key and the clocks, and these agree.
  cases hmove with
  | missing => exact ⟨hmeta, h⟩
  | undecodable hd => exact ⟨hmeta, h⟩
  | load hd he => exact ⟨hmeta, h⟩
  | loadDue hd he => exact ⟨hmeta, h⟩
  | inTime hn => exact htick
  | due he hn => exact htick
  | tick => exact htick
  | issue => exact hissue
  | issueString => exact hissue
  | read hm hraw => exact ⟨h.disk _ (.inr ⟨_, hraw⟩), h⟩
  | readNew hraw => exact ⟨h.disk _ (.inr ⟨_, hraw⟩), h⟩
  | @scan m pre l hm hp =>
    refine ⟨prefixScan_congr fun raw hpre => h.disk raw (.inr ⟨m.version, ?_⟩), h⟩
    refine parseOwnerVersion_eq_some.mpr ⟨hk, ?_⟩
    obtain rfl | rfl := hp
    · exact .inl hpre
    · exact .inr hpre
  | expire => exact ⟨rfl, hwrite _⟩
  | update hr hm ht hv => exact ⟨rfl, hwrite _⟩
  | delete => exact ⟨rfl, hwrite _⟩
  | strip hr hm => exact ⟨rfl, hwrite _⟩
  | deleteEmptied => exact ⟨rfl, hwrite _⟩
  | writeNew hr hm hv he => exact ⟨rfl, hwrite _⟩
  | writeString hm => exact ⟨rfl, hwrite _⟩
  | drop => exact ⟨rfl, hmap _ _⟩
  | register => exact ⟨rfl, hmap _ _⟩
  | untrack => exact ⟨rfl, hmap _ _⟩

theorem KeyOp.run_alikeAt (key : Key) (op : KeyOp) {s t : World} (h : AlikeAt key.1 s t) :
    ((Op.keyed key op).run t).1 = ((Op.keyed key op).run s).1 ∧
      AlikeAt key.1 ((Op.keyed key op).run s).2 ((Op.keyed key op).run t).2 :=
  (KeyOp.obeys key.2 op).run_congr (fun ph _ o => possible_of_not_fresh key.1 ph o _)
    (fun _ _ _ _ _ hS hmove => alikeAt_move key.2 hS hmove) h

theorem KeyOp.run_alike (key : Key) (op : KeyOp) {s t : World} (h : AlikeAt key.1 s t) :
    ((Op.keyed key op).run t).1 = ((Op.keyed key op).run s).1 := (op.run_alikeAt key h).1

/-! ## Reads on an absent key -/

/-- What a read returns when there is nothing. -/
def KeyOp.absentReply : KeyOp → Reply
  | .get | .hget _ => .value none
  | .exists | .hexists _ | .sismember _ => .bool false
  | .typeOf => .text "none"
  | .pttl => .int (-2)
  | .hgetall => .pairs []
  | .hlen | .scard | .zcard | .llen => .int 0
  | .smembers | .lrange _ _ => .values []
  | .zscore _ => .score none
  | .zrange _ _ | .zrangeByScore _ _ _ _ => .scored []
  | _ => .unit

theorem run_read_absent (key : Key) {op : KeyOp} (hop : op.isRead) {w : World} (h : w.Absent key.1) :
    ((Op.keyed key op).run w).1 = .ok op.absentReply := by
  obtain ⟨w', hlive, -⟩ := run_loadLiveMeta_absent h
  have htyped : ∀ t, (loadTyped key.1 t).run exec w = (.ok none, w') := by
    intro t
    rw [loadTyped, Prog.run_bind_ok _ hlive]
    rfl
  have hread : ∀ {α : Type} (f : α → Reply) (p : StoreM α) (a : α), (p.run exec w).1 = .ok a →
      ((f <$> p).run exec w).1 = .ok (f a) := by
    intro α f p a hp
    rw [Prog.run_map, hp]
    rfl
  have hloaded : ∀ {α : Type} (f : Option Meta → StoreM α) (a : α), f none = pure a →
      ((loadLiveMeta key.1 >>= f).run exec w).1 = .ok a := by
    intro α f a hf
    rw [Prog.run_bind_ok _ hlive, hf]
    rfl
  have hopened : ∀ {α : Type} (t : UInt8) (f : Option Meta → StoreM α) (a : α), f none = pure a →
      ((loadTyped key.1 t >>= f).run exec w).1 = .ok a := by
    intro α t f a hf
    rw [Prog.run_bind_ok _ (htyped t), hf]
    rfl
  cases op with
  | get => exact hread _ _ _ (hloaded _ _ rfl)
  | «exists» => exact hread _ _ _ (hloaded _ _ rfl)
  | typeOf => exact hread _ _ _ (hloaded _ _ rfl)
  | pttl => exact hread _ _ _ (hloaded _ _ rfl)
  | hget f => exact hread _ _ _ (hopened _ _ _ rfl)
  | hgetall => exact hread _ _ _ (hopened _ _ _ rfl)
  | hlen => exact hread _ _ _ (hopened _ _ _ rfl)
  -- It calls `hget`.
  | hexists f =>
    have hget : (hget key.1 f).run exec w = (.ok none, w') := by
      rw [hget, Prog.run_bind_ok _ (htyped _)]
      rfl
    apply hread
    rw [hexists, Prog.run_bind_ok _ hget]
    rfl
  | sismember x => exact hread _ _ _ (hopened _ _ _ rfl)
  | smembers => exact hread _ _ _ (hopened _ _ _ rfl)
  | scard => exact hread _ _ _ (hopened _ _ _ rfl)
  | zscore x => exact hread _ _ _ (hopened _ _ _ rfl)
  | zcard => exact hread _ _ _ (hopened _ _ _ rfl)
  | zrange start stop => exact hread _ _ _ (hopened _ _ _ rfl)
  | zrangeByScore min minExclusive max maxExclusive => exact hread _ _ _ (hopened _ _ _ rfl)
  | lrange start stop => exact hread _ _ _ (hopened _ _ _ rfl)
  | llen => exact hread _ _ _ (hopened _ _ _ rfl)
  | _ => cases hop

/-! ## The content of a disk -/

/-- No read can tell the disks apart once they are opened, at any time from `now` on. -/
def SameContent (now : UInt64) (d d' : Disk) : Prop :=
  ∀ clock : Clock, (∀ n, now ≤ clock.ms.get n) → ∀ key op, op.isRead →
    ((Op.keyed key op).run (World.opened d clock)).1 = ((Op.keyed key op).run (World.opened d' clock)).1

theorem SameContent.refl (now : UInt64) (d : Disk) : SameContent now d d := fun _ _ _ _ _ => rfl

theorem alikeAt_opened {d d' : Disk} {k : Bytes} (h : ∀ raw, Reachable k raw → d'[raw]? = d[raw]?)
    (clock : Clock) : AlikeAt k (World.opened d clock) (World.opened d' clock) := by
  rw [opened_eq, opened_eq]
  exact ⟨rfl, rfl, h⟩

/-- An expired key may be dropped unseen. -/
theorem sameContent_drop {w : World} {k : Bytes} (h : w.Absent k) :
    SameContent w.ms.head (w.disk.erase (metaKey k)) w.disk := by
  intro clock hclock key op hop
  by_cases hk : key.1 = k
  · subst hk
    have hgone : (World.opened (w.disk.erase (metaKey key.1)) clock).Absent key.1 := by
      rw [opened_eq]
      exact .inl (by simp only [getElem?_erase_bytes, if_pos])
    have hdue : (World.opened w.disk clock).Absent key.1 := by
      rw [opened_eq]
      exact h.imp id fun ⟨m, hm, he, hn⟩ => ⟨m, hm, he, UInt64.le_trans hn (hclock 0)⟩
    rw [run_read_absent key hop hgone, run_read_absent key hop hdue]
  · apply op.run_alike
    apply alikeAt_opened
    intro raw hraw
    rw [getElem?_erase_bytes, if_neg]
    rintro rfl
    obtain hraw | ⟨v, hraw⟩ := hraw
    · exact hk (metaKey_inj.mp hraw).symm
    · exact hraw.ne_metaKey k rfl

end GameStore
