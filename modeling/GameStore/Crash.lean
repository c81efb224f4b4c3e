import GameStore.Removal
import GameStore.Queries

/-!
# Stopping in the middle of an operation

A stop leaves the disk as it was after some of the operation's calls. Reopened,
it shows what it showed before the operation or what it shows after it, unless
the operation takes a key's last element: then the elements go in one write and
the metadata in the next.
-/

namespace GameStore

open Lib Std

/-- The operation takes the last element of its key: the listed elements that are
there make up the stored count (`hdel` counts a repeated field each time), or all
elements between the list's bounds are popped. -/
def KeyOp.Empties (k : Bytes) (w : World) : KeyOp → Prop
  | .hdel fields => ∃ m, w.liveMeta k = some m ∧ m.typeId = TYPE_HASH ∧
      TakesAll m (found w.disk k m.version fields)
  | .srem members => ∃ m, w.liveMeta k = some m ∧ m.typeId = TYPE_SET ∧
      TakesAll m (found w.disk k m.version members.dedup)
  | .zrem members => ∃ m, w.liveMeta k = some m ∧ m.typeId = TYPE_ZSET ∧
      ScoresDecode w.disk k m.version members ∧ TakesAll m (found w.disk k m.version members.dedup)
  | .pop count _ => ∃ m head tail, w.liveMeta k = some m ∧ m.typeId = TYPE_LIST ∧
      m.listBounds = some (head, tail) ∧ PopsAll w.disk k m.version head tail count
  | _ => False

def Op.Empties (w : World) : Op → Prop
  | .keyed key op => op.Empties key.1 w
  | _ => False

/-- `LPOP` and `RPOP` take their count as an `i64`. -/
def Op.countFits : Op → Prop
  | .keyed _ (.pop count _) => count < 2 ^ 63
  | _ => True

/-- Wherever the operation is cut short, the reopened store has the content from
before it or the content from after it. -/
def CrashAtomic (w : World) (op : Op) : Prop :=
  ∀ n, SameContent w.ms.head (Prog.after exec n op.prog w).2.disk w.disk ∨
    SameContent w.ms.head (Prog.after exec n op.prog w).2.disk (op.run w).2.disk

/-! ## Removals -/

section Removals

variable {w : World} {m : Meta}

theorem hdel_outcome (key : Key) (hlive : w.liveMeta key.1 = some m) (ht : m.typeId = TYPE_HASH)
    (fields : List Bytes) :
    Outcome key.1 w m ((KeyOp.hdel fields).prog key.1) (found w.disk key.1 m.version fields) := by
  obtain ⟨w', hst, hload⟩ : ∃ w', w'.toStore = w.toStore ∧
      Prog.Reaches exec ((KeyOp.hdel fields).prog key.1) w (Reply.int <$> (do
        let t ← fields.foldlM (hdelStep key.1 m.version) ⟨m.fieldCount, 0, []⟩
        finishRemoval key.1 m t)) w' := reaches_typed hlive ht _ Reply.int
  have hd : w'.disk = w.disk := by rw [hst]
  have hrun := run_hdelSteps (k := key.1) (v := m.version) fields ⟨m.fieldCount, 0, []⟩ w'
  have hloop := reaches_loop hrun (finishRemoval key.1 m) Reply.int
  rw [hd] at hloop
  have hgather := gathered_foldl (k := key.1) (v := m.version) (fun x => [.delete (subkey _ _ x)])
    (fun x => Records.single (parseOwnerVersion_subkey key.2 _ x)) (by simp [WriteOp.value])
    (by simp [WriteOp.key]) m (found w.disk key.1 m.version fields)
  exact finishRemoval_outcome hst hgather (hload.trans hloop)

theorem srem_outcome (key : Key) (hlive : w.liveMeta key.1 = some m) (ht : m.typeId = TYPE_SET)
    (members : List Bytes) : Outcome key.1 w m ((KeyOp.srem members).prog key.1)
      (found w.disk key.1 m.version (firsts [] members)) := by
  obtain ⟨w', hst, hload⟩ : ∃ w', w'.toStore = w.toStore ∧
      Prog.Reaches exec ((KeyOp.srem members).prog key.1) w (Reply.int <$> (do
        let st ← members.foldlM (sremStep key.1 m.version) ([], ⟨m.fieldCount, 0, []⟩)
        finishRemoval key.1 m st.2)) w' := reaches_typed hlive ht _ Reply.int
  have hd : w'.disk = w.disk := by rw [hst]
  obtain ⟨seen, hrun⟩ := run_sremSteps (k := key.1) (v := m.version) members []
    ⟨m.fieldCount, 0, []⟩ w'
  have hloop := reaches_loop hrun (fun st => finishRemoval key.1 m st.2) Reply.int
  rw [hd] at hloop
  have hgather := gathered_foldl (k := key.1) (v := m.version) (fun x => [.delete (subkey _ _ x)])
    (fun x => Records.single (parseOwnerVersion_subkey key.2 _ x)) (by simp [WriteOp.value])
    (by simp [WriteOp.key]) m (found w.disk key.1 m.version (firsts [] members))
  exact finishRemoval_outcome hst hgather (hload.trans hloop)

theorem zrem_outcome (key : Key) (hlive : w.liveMeta key.1 = some m) (ht : m.typeId = TYPE_ZSET)
    {members : List Bytes} (hdec : ScoresDecode w.disk key.1 m.version members) :
    Outcome key.1 w m ((KeyOp.zrem members).prog key.1)
      (found w.disk key.1 m.version (firsts [] members)) := by
  obtain ⟨w', hst, hload⟩ : ∃ w', w'.toStore = w.toStore ∧
      Prog.Reaches exec ((KeyOp.zrem members).prog key.1) w (Reply.int <$> (do
        let st ← members.foldlM (zremStep key.1 m.version) ([], ⟨m.fieldCount, 0, []⟩)
        finishRemoval key.1 m st.2)) w' := reaches_typed hlive ht _ Reply.int
  have hd : w'.disk = w.disk := by rw [hst]
  rw [← hd, ← scoresDecode_firsts] at hdec
  obtain ⟨seen, hrun⟩ := run_zremSteps members [] ⟨m.fieldCount, 0, []⟩ hdec
  have hloop := reaches_loop hrun (fun st => finishRemoval key.1 m st.2) Reply.int
  rw [hd] at hloop
  have hgather := gathered_foldl (k := key.1) (v := m.version)
    (memberDeletes w.disk key.1 m.version)
    (fun x => Records.cons (parseOwnerVersion_subkey key.2 _ x)
      (Records.single (parseOwnerVersion_zscoreKey key.2 _ _ x)))
    (by simp [memberDeletes, WriteOp.value]) (by simp [memberDeletes, WriteOp.key]) m
    (found w.disk key.1 m.version (firsts [] members))
  exact finishRemoval_outcome hst hgather (hload.trans hloop)

/-- A score that does not decode ends `zrem` before it writes. -/
theorem zrem_undecodable (key : Key) (hlive : w.liveMeta key.1 = some m) (ht : m.typeId = TYPE_ZSET)
    {members : List Bytes} (hdec : ¬ ScoresDecode w.disk key.1 m.version members) :
    (((KeyOp.zrem members).prog key.1).run exec w).2.disk = w.disk := by
  obtain ⟨w', hst, hload⟩ : ∃ w', w'.toStore = w.toStore ∧
      Prog.Reaches exec ((KeyOp.zrem members).prog key.1) w (Reply.int <$> (do
        let st ← members.foldlM (zremStep key.1 m.version) ([], ⟨m.fieldCount, 0, []⟩)
        finishRemoval key.1 m st.2)) w' := reaches_typed hlive ht _ Reply.int
  have hd : w'.disk = w.disk := by rw [hst]
  rw [← hd, ← scoresDecode_firsts] at hdec
  obtain ⟨e, hrun⟩ := run_zremSteps_error members [] ⟨m.fieldCount, 0, []⟩ hdec
  have hfinal := hload.run_eq.trans (run_loop_err hrun (fun st => finishRemoval key.1 m st.2) Reply.int)
  exact (congrArg (fun r : Except EngineError Reply × World => r.2.disk) hfinal).trans hd

theorem pop_outcome (key : Key) (hlive : w.liveMeta key.1 = some m) (ht : m.typeId = TYPE_LIST)
    {head tail : UInt64} (hb : m.listBounds = some (head, tail)) (count : ℕ) (left : Bool) :
    PopOutcome key.1 w m ((KeyOp.pop count left).prog key.1) head tail count := by
  obtain ⟨w', hst, hload⟩ : ∃ w', w'.toStore = w.toStore ∧
      Prog.Reaches exec ((KeyOp.pop count left).prog key.1) w _ w' :=
    reaches_typed hlive ht _ Reply.values
  have hd : w'.disk = w.disk := by rw [hst]
  dsimp only at hload
  rw [hb] at hload
  obtain ⟨r, hrun, hr⟩ := run_popLoop (k := key.1) (v := m.version) left count ⟨head, tail, []⟩ [] w'
  rw [hd] at hr
  -- The loop reads elements only, so it fails before anything is written.
  cases r with
  | error e =>
    obtain ⟨i, hlo, hhi, hmiss⟩ := hr
    refine ⟨fun ⟨_, _, hall⟩ => ?_, fun _ hmeta => ?_⟩
    · have hsome := hall i hlo hhi
      rw [hmiss] at hsome
      cases hsome
    · have hfinal := hload.run_eq.trans
        (run_loop_err hrun (fun res => finishPop key.1 m res.1 res.2) Reply.values)
      have hdisk := congrArg (fun r : Except EngineError Reply × World => r.2.disk) hfinal
      exact fun h => hmeta ((congrArg (·[metaKey key.1]?) (hdisk.trans hd)).symm.trans h)
  | ok res =>
    obtain ⟨e, out⟩ := res
    obtain ⟨got, hlen, hpop⟩ := hr
    obtain rfl : got = out.length := by simpa using hlen.symm
    exact finishPop_outcome key.2 hst hpop (hload.trans
      (reaches_loop hrun (fun res => finishPop key.1 m res.1 res.2) Reply.values))

end Removals

/-! ## Where a stop leaves the disk -/

/-- Nothing more is written from here. -/
def Phase.written : Phase → Prop
  | .dropping .deleted | .dropping .emptied | .done | .gone | .emptied => True
  | _ => False

theorem written_move {k : Bytes} {ph ph' : Phase} {o : Call} {a : o.Ans} (h : Move k ph o a ph')
    (hph : ph.written) (s : World) : ph'.written ∧ (exec o s).2.disk = s.disk := by
  cases h with
  | @drop why =>
    cases why with
    | due => exact hph.elim
    | deleted => exact ⟨trivial, rfl⟩
    | emptied => exact ⟨trivial, rfl⟩
  | _ => exact hph.elim

/-- The last elements are gone: the metadata must still go. -/
def Phase.stripped : Phase → Prop
  | .emptying _ | .dropping .emptied | .emptied => True
  | _ => False

theorem stripped_move {k : Bytes} {ph ph' : Phase} {o : Call} {a : o.Ans} (h : Move k ph o a ph')
    (hph : ph.stripped) : ph'.stripped := by
  cases h with
  | deleteEmptied => trivial
  | @drop why =>
    cases why with
    | due => exact hph.elim
    | deleted => exact hph.elim
    | emptied => trivial
  | _ => exact hph.elim

section Stop

variable {w : World} {k : Bytes}

/-- From a written phase the disk is the final one. -/
theorem disk_of_written {fresh : Prop} {p : StoreM Reply}
    {Q : Except EngineError Reply → Phase → Prop} {ph : Phase} {s : World}
    (hp : Obeys fresh k Q ph p) (hph : ph.written) : (p.run exec s).2.disk = s.disk := by
  have hs : Prog.Sound exec (Possible fresh k) (Move k)
      fun ph t => ph.written ∧ t.disk = s.disk := by
    constructor
    · rintro ph t o ⟨hph, -⟩
      cases o with
      | get raw =>
        rintro v rfl
        exact hph.elim
      | _ => trivial
    · rintro ph t o ph' ⟨hph, ht⟩ hmove
      obtain ⟨hph', hd⟩ := written_move hmove hph t
      exact ⟨hph', hd.trans ht⟩
  obtain ⟨-, -, -, h⟩ := hp.run hs ⟨hph, rfl⟩
  exact h

/-- Once the elements are stripped, the run ends without the metadata. -/
theorem gone_of_stripped {al : Allowed} {p : StoreM Reply} {ph : Phase} {s : World}
    (hp : Obeys (NewVersion k w) k (Settles al) ph p) (hs : Stage k w ph s) (hph : ph.stripped) :
    al.empties ∧ (p.run exec s).2.disk[metaKey k]? = none := by
  have hsound := (stage_sound k w).and_ghost (φ := Phase.stripped) fun _ _ _ _ => stripped_move
  obtain ⟨ph', hsettled, hstage, hph'⟩ := hp.run hsound ⟨hs, hph⟩
  match ph' with
  | .emptied =>
    obtain ⟨-, m, recs, -, -, -, hst⟩ := hstage
    refine ⟨hsettled, ?_⟩
    rw [hst]
    simp only [getElem?_erase_bytes, if_pos]

theorem run_typed_wrong {α : Type} {t : UInt8} {m : Meta} (hlive : w.liveMeta k = some m)
    (ht : m.typeId ≠ t) (f : Option Meta → StoreM α) (g : α → Reply) :
    ((g <$> (loadTyped k t >>= f)).run exec w).2.disk = w.disk := by
  obtain ⟨w', hload, hst, -⟩ := run_loadLiveMeta_live hlive
  have hwrong : (loadTyped k t).run exec w = (.error .wrongType, w') := by
    rw [loadTyped, Prog.run_bind_ok _ hload]
    dsimp only
    rw [if_neg ht]
    rfl
  rw [Prog.run_map, Prog.run_bind_err _ hwrong]
  change w'.disk = w.disk
  rw [hst]

theorem run_pop_undecodable {m : Meta} (hlive : w.liveMeta k = some m) (ht : m.typeId = TYPE_LIST)
    (hb : m.listBounds = none) (count : ℕ) (left : Bool) :
    (((KeyOp.pop count left).prog k).run exec w).2.disk = w.disk := by
  obtain ⟨w', hload, hst, -⟩ := run_loadTyped_live hlive
  rw [ht] at hload
  rw [KeyOp.prog, Prog.run_map, pop, Prog.run_bind_ok _ hload]
  dsimp only
  rw [hb]
  change w'.disk = w.disk
  rw [hst]

/-- An operation that can empty its key and after which the key is gone emptied it. -/
theorem empties_of_gone {fresh : Prop} (key : Key) {op : KeyOp} {m : Meta}
    (hlive : w.liveMeta key.1 = some m) (hal : (op.allowed fresh).empties)
    (hgone : ((op.prog key.1).run exec w).2.disk[metaKey key.1]? = none) : op.Empties key.1 w := by
  have hmeta : w.disk[metaKey key.1]? ≠ none := by
    intro h
    rw [liveMeta_of_missing h] at hlive
    cases hlive
  -- The metadata is there before and gone after, so the disk was written.
  by_contra hnot
  have hsame : ((op.prog key.1).run exec w).2.disk ≠ w.disk := fun h => hmeta (h ▸ hgone)
  cases op with
  | hdel fields =>
    by_cases ht : m.typeId = TYPE_HASH
    · exact (hdel_outcome key hlive ht fields).leaves (fun h => hnot ⟨m, hlive, ht, h⟩) hmeta hgone
    · exact hsame (run_typed_wrong hlive ht _ _)
  | srem members =>
    by_cases ht : m.typeId = TYPE_SET
    · refine (srem_outcome key hlive ht members).leaves (fun h => hnot ⟨m, hlive, ht, ?_⟩) hmeta hgone
      exact takesAll_firsts.mp h
    · exact hsame (run_typed_wrong hlive ht _ _)
  | zrem members =>
    by_cases ht : m.typeId = TYPE_ZSET
    · by_cases hdec : ScoresDecode w.disk key.1 m.version members
      · refine (zrem_outcome key hlive ht hdec).leaves (fun h => hnot ⟨m, hlive, ht, hdec, ?_⟩) hmeta hgone
        exact takesAll_firsts.mp h
      · exact hsame (zrem_undecodable key hlive ht hdec)
    · exact hsame (run_typed_wrong hlive ht _ _)
  | pop count left =>
    by_cases ht : m.typeId = TYPE_LIST
    · cases hb : m.listBounds with
      | none => exact hsame (run_pop_undecodable hlive ht hb count left)
      | some bounds =>
        obtain ⟨head, tail⟩ := bounds
        exact (pop_outcome key hlive ht hb count left).leaves
          (fun h => hnot ⟨m, head, tail, hlive, ht, hb, h⟩) hmeta hgone
    · exact hsame (run_typed_wrong hlive ht _ _)
  | _ => exact hal.elim

theorem stage_disk_content {ph : Phase} {s : World} (hs : Stage k w ph s) (hwritten : ¬ ph.written)
    (hempty : ∀ m, ph ≠ .emptying m) : SameContent w.ms.head s.disk w.disk := by
  have hcleared : ∀ st : Store, w.Absent k → Cleared k w.toStore st →
      SameContent w.ms.head st.disk w.disk := by
    intro st habs hst
    rw [hst.disk_eq]
    exact sameContent_drop habs
  have hsame : s.disk = w.disk → SameContent w.ms.head s.disk w.disk := fun h => h ▸ SameContent.refl _ _
  cases ph with
  | start => exact hsame ((show s = w from hs) ▸ rfl)
  | overwriting => exact hsame ((show s = w from hs) ▸ rfl)
  | loaded m => exact hsame (hs.1 ▸ rfl)
  | live m => exact hsame (by rw [hs.2.2])
  | expired m => exact hsame (by rw [hs.2.2.2])
  | dropping why =>
    cases why with
    | due =>
      rw [hs.2.2]
      exact sameContent_drop hs.1
    | deleted => exact absurd trivial hwritten
    | emptied => exact absurd trivial hwritten
  | absent => exact hcleared _ hs.1 hs.2.2
  | issued v =>
    obtain ⟨habs, -, st, hst, he⟩ := hs
    rw [he]
    exact hcleared st habs hst
  | created v =>
    obtain ⟨habs, -, st, hst, he⟩ := hs
    rw [he]
    exact hcleared st habs hst
  | untracked => exact hsame (by rw [hs.2])
  | untrackedIssued v => exact hsame (by rw [hs.2])
  | emptying m => exact absurd rfl (hempty m)
  | done => exact absurd trivial hwritten
  | gone => exact absurd trivial hwritten
  | emptied => exact absurd trivial hwritten

theorem keyed_atomic (key : Key) (op : KeyOp) (w : World) (hnot : ¬ op.Empties key.1 w) :
    CrashAtomic w (.keyed key op) := by
  intro n
  obtain ⟨ph, hrest, hs⟩ := (op.obeys key.2).after (stage_sound key.1 w) n (op.stage_begins key.1 w)
  have hrun : ((Op.keyed key op).run w).2 = _ :=
    congrArg Prod.snd (Prog.run_after exec n (op.prog key.1) w).symm
  by_cases hwritten : ph.written
  · right
    rw [hrun, disk_of_written hrest hwritten]
    exact SameContent.refl _ _
  · left
    refine stage_disk_content hs hwritten ?_
    rintro m rfl
    obtain ⟨hal, hgone⟩ := gone_of_stripped hrest hs trivial
    rw [Prog.run_after] at hgone
    obtain ⟨recs, hlive, -⟩ := hs
    exact hnot (empties_of_gone key hlive hal hgone)

end Stop

/-- An operation of one write or none. -/
theorem wholeStore_atomic (w : World) {op : Op} (hop : ∀ key kop, op ≠ .keyed key kop) :
    CrashAtomic w op := by
  intro n
  cases op with
  | keyed key kop => exact absurd rfl (hop key kop)
  | dbsize =>
    match n with
    | 0 => exact .inl (SameContent.refl _ _)
    | n + 1 =>
      left
      change SameContent _ (Prog.after exec n (.ok _) w).2.disk _
      rw [Prog.after_ok]
      exact SameContent.refl _ _
  | rawSubkeyCount =>
    match n with
    | 0 | 1 => exact .inl (SameContent.refl _ _)
    | n + 2 =>
      left
      change SameContent _ (Prog.after exec n (.ok _) w).2.disk _
      rw [Prog.after_ok]
      exact SameContent.refl _ _
  | compact =>
    match n with
    | 0 => exact .inl (SameContent.refl _ _)
    | n + 1 =>
      right
      change SameContent _ (Prog.after exec n (.ok _) (exec .compactRange w).2).2.disk _
      rw [Prog.after_ok]
      exact SameContent.refl _ _
  | flushAll =>
    match n with
    | 0 | 1 | 2 | 3 => exact .inl (SameContent.refl _ _)
    | 4 => exact .inr (SameContent.refl _ _)
    | n + 5 =>
      right
      change SameContent _ (Prog.after exec n (.ok _) ((flushAll.run exec w).2)).2.disk _
      rw [Prog.after_ok]
      exact SameContent.refl _ _

/-! ## The operation that takes the last element -/

section Emptying

variable {w : World} {k : Bytes}

/-- A clock that stands at the operation's reading. -/
def World.frozen (w : World) : Clock := ⟨Stream'.const w.ms.head, w.micros⟩

theorem liveMeta_opened {d : Disk} (h : d[metaKey k]? = w.disk[metaKey k]?) :
    (World.opened d w.frozen).liveMeta k = w.liveMeta k := by
  rw [opened_eq, World.liveMeta, World.liveMeta]
  dsimp only
  rw [readMeta_congr h]
  rfl

/-- A read that shows the element missing. -/
theorem not_atomic_of_strips (key : Key) {op : KeyOp} {m : Meta} (hlive : w.liveMeta key.1 = some m)
    {raw : Bytes} (hs : Strips key.1 w (op.prog key.1) raw) {r : KeyOp} (hr : r.isRead)
    (hread : ∀ d : Disk, d[metaKey key.1]? = w.disk[metaKey key.1]? → d[raw]? = none →
      ((r.prog key.1).run exec (World.opened d w.frozen)).1 ≠
        ((r.prog key.1).run exec (World.opened w.disk w.frozen)).1) :
    ¬ CrashAtomic w (.keyed key op) := by
  obtain ⟨v, recs, n, hrecs, hnone, hstop, hend⟩ := hs
  have hmeta : (applyBatch w.disk recs)[metaKey key.1]? = w.disk[metaKey key.1]? :=
    hrecs.getElem?_metaKey w.disk key.1
  have hclock : ∀ n, w.ms.head ≤ w.frozen.ms.get n := fun _ => UInt64.le_refl _
  intro hatomic
  have hn := hatomic n
  change SameContent _ (Prog.after exec n (op.prog key.1) w).2.disk _ ∨
    SameContent _ (Prog.after exec n (op.prog key.1) w).2.disk ((op.prog key.1).run exec w).2.disk at hn
  rw [hstop, hend] at hn
  obtain hsame | hsame := hn
  · exact hread _ hmeta hnone (hsame w.frozen hclock key r hr)
  · have hexists := hsame w.frozen hclock key .exists rfl
    have hthere : (World.opened (applyBatch w.disk recs) w.frozen).liveMeta key.1 = some m :=
      (liveMeta_opened hmeta).trans hlive
    have habs : (World.opened ((applyBatch w.disk recs).erase (metaKey key.1)) w.frozen).Absent key.1 := by
      rw [opened_eq]
      exact .inl (by simp only [getElem?_erase_bytes, if_pos])
    rw [run_read_absent key rfl habs] at hexists
    have hlive' := run_exists_live hthere
    rw [show ((Op.keyed key .exists).run (World.opened (applyBatch w.disk recs) w.frozen)).1 = _ from
      hlive'] at hexists
    cases hexists

/-- A read of an element that is there and is shown missing. -/
theorem not_atomic_of_empties (key : Key) {op : KeyOp} (hfits : (Op.keyed key op).countFits)
    (h : op.Empties key.1 w) : ¬ CrashAtomic w (.keyed key op) := by
  have hopened : ∀ {d : Disk} {m : Meta}, w.liveMeta key.1 = some m →
      d[metaKey key.1]? = w.disk[metaKey key.1]? →
      (World.opened d w.frozen).liveMeta key.1 = some m := fun hlive hd =>
    (liveMeta_opened hd).trans hlive
  have hdisk : ∀ d : Disk, (World.opened d w.frozen).disk = d := fun d => by rw [opened_eq]
  cases op with
  | hdel fields =>
    obtain ⟨m, hlive, ht, hall⟩ := h
    obtain ⟨x, hx⟩ := List.exists_mem_of_ne_nil _ hall.1
    refine not_atomic_of_strips key hlive ((hdel_outcome key hlive ht fields).strips hall x hx)
      (r := .hexists x) rfl fun d hd hnone hsame => ?_
    have hthere := (List.mem_filter.mp hx).2
    rw [run_hexists_live (hopened hlive hd) ht x,
      run_hexists_live (hopened hlive rfl) ht x, hdisk, hdisk, hnone, hthere] at hsame
    cases hsame
  | srem members =>
    obtain ⟨m, hlive, ht, hall⟩ := h
    rw [← takesAll_firsts] at hall
    obtain ⟨x, hx⟩ := List.exists_mem_of_ne_nil _ hall.1
    refine not_atomic_of_strips key hlive ((srem_outcome key hlive ht members).strips hall x hx)
      (r := .sismember x) rfl fun d hd hnone hsame => ?_
    have hthere := (List.mem_filter.mp hx).2
    rw [run_sismember_live (hopened hlive hd) ht x,
      run_sismember_live (hopened hlive rfl) ht x, hdisk, hdisk, hnone, hthere] at hsame
    cases hsame
  | zrem members =>
    obtain ⟨m, hlive, ht, hdec, hall⟩ := h
    rw [← takesAll_firsts] at hall
    obtain ⟨x, hx⟩ := List.exists_mem_of_ne_nil _ hall.1
    refine not_atomic_of_strips key hlive ((zrem_outcome key hlive ht hdec).strips hall x hx)
      (r := .zscore x) rfl fun d hd hnone hsame => ?_
    obtain ⟨hmem, hthere⟩ := List.mem_filter.mp hx
    obtain ⟨raw, hraw⟩ := Option.isSome_iff_exists.mp hthere
    have hlen := hdec x (mem_firsts.mp hmem).1
    rw [run_zscore_live (hopened hlive hd) ht (by rw [hdisk, hnone]; exact nofun),
      run_zscore_live (hopened hlive rfl) ht (by rw [hdisk]; exact hlen), hdisk, hdisk,
      hnone, hraw] at hsame
    cases hsame
  | pop count left =>
    obtain ⟨m, head, tail, hlive, ht, hb, hall⟩ := h
    have hfit : tail.toNat - head.toNat < 2 ^ 63 := Nat.lt_of_le_of_lt hall.2.1 hfits
    refine not_atomic_of_strips key hlive ((pop_outcome key hlive ht hb count left).strips hall)
      (r := .lrange 0 (-1)) rfl fun d hd hnone hsame => ?_
    have hthere : ∀ o < tail.toNat - head.toNat, w.disk[elementKey key.1 m.version
        (head + UInt64.ofNat o)]? =
        some (w.disk[elementKey key.1 m.version (head + UInt64.ofNat o)]?.getD []) := by
      intro o ho
      have hnat : (head + UInt64.ofNat o).toNat = head.toNat + o := by
        have := tail.toNat_lt
        rw [UInt64.toNat_add, UInt64.toNat_ofNat']
        omega
      have hsome := hall.2.2 (head + UInt64.ofNat o) (UInt64.le_iff_toNat_le.mpr (by omega))
        (UInt64.lt_iff_toNat_lt.mpr (by omega))
      obtain ⟨value, hv⟩ := Option.isSome_iff_exists.mp hsome
      rw [hv]
      rfl
    rw [run_lrange_missing (hopened hlive hd) ht hb hall.1 hfit (by rw [hdisk]; exact hnone),
      run_lrange_live (hopened hlive rfl) ht hb hall.1 hfit
        (by rw [hdisk]; exact hthere)] at hsame
    cases hsame
  | _ => exact h.elim

end Emptying

/-- An operation is atomic against a stop exactly when it does not take the last
element of a hash, set, sorted set or list. -/
theorem crash_atomic_iff_not_empties (w : World) (op : Op) (hfits : op.countFits) :
    CrashAtomic w op ↔ ¬ op.Empties w := by
  cases op with
  | keyed key op =>
    exact ⟨fun hatomic h => not_atomic_of_empties key hfits h hatomic, keyed_atomic key op w⟩
  | _ => exact ⟨fun _ => id, fun _ => wholeStore_atomic w (by simp)⟩

/-- A list of two loses one of them, at any point of the `pop`. -/
theorem crash_atomic_pop_of_two : (Op.keyed Key.k (.pop 1 true)).countFits ∧
    CrashAtomic ((World.opened ∅ (stillClock 7 5)).after
      [.run (.keyed Key.k (.push [[120], [121]] false))])
      (.keyed Key.k (.pop 1 true)) := by
  have hfits : (Op.keyed Key.k (.pop 1 true)).countFits := by
    change 1 < 2 ^ 63
    norm_num
  refine ⟨hfits, (crash_atomic_iff_not_empties _ _ hfits).mpr ?_⟩
  rintro ⟨m, head, tail, hlive, -, hb, -, hle, -⟩
  have hm : World.liveMeta ((World.opened ∅ (stillClock 7 5)).after
      [.run (.keyed Key.k (.push [[120], [121]] false))]) [107] =
      some ((newMeta TYPE_LIST 5).setListBounds LIST_INITIAL_INDEX (LIST_INITIAL_INDEX + 2)) := by
    decide +kernel
  obtain rfl := Option.some.inj (hm.symm.trans hlive)
  rw [Meta.listBounds_setListBounds rfl] at hb
  obtain ⟨rfl, rfl⟩ : LIST_INITIAL_INDEX = head ∧ LIST_INITIAL_INDEX + 2 = tail := by simpa using hb
  exact absurd hle (by decide)

/-- The only field of a hash is deleted. -/
theorem not_crash_atomic_hdel_of_last :
    ¬ CrashAtomic ((World.opened ∅ (stillClock 7 5)).after
      [.run (.keyed Key.k (.hset [([102], [118])]))])
      (.keyed Key.k (.hdel [[102]])) := by
  intro h
  have hclock : ∀ n, 7 ≤ (stillClock 7 5).ms.get n := fun _ => UInt64.le_refl 7
  obtain h | h := h 3
  · exact absurd (h (stillClock 7 5) hclock Key.k (.hexists [102]) rfl) (by decide +kernel)
  · exact absurd (h (stillClock 7 5) hclock Key.k .hlen rfl) (by decide +kernel)

end GameStore
