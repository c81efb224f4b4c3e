import GameStore.Sharing

/-!
# The version map while operations overlap

A key is created map first and deleted disk first, and nothing keeps a second
operation on the key out in between. `Tie` is what an operation in progress takes
for granted about its key from its last call to its next one. Where the others
leave that alone, the map tells the version of every composite key once all
operations have returned.
-/

namespace GameStore

open Lib Std

/-! ## Any number of clients -/

structure Client where
  op : Op
  proc : Process Call Call.Ans EngineError Reply Clock

def Client.returned (cl : Client) : Bool := cl.proc.result.isSome

/-- The shared store and the last operation of each client. -/
structure System where
  store : Store
  clients : ℕ → Option Client

/-- Nothing is in progress. -/
def System.AtRest (sys : System) : Prop := ∀ c cl, sys.clients c = some cl → cl.returned = true

inductive Activity
  /-- A client whose last operation has returned starts another one. -/
  | start (c : ℕ) (op : Op) (clock : Clock)
  /-- The operation of the client makes its next call. -/
  | call (c : ℕ)
  /-- A background compaction. -/
  | compaction (sel : Bytes → Bool)

def System.busy (sys : System) (c : ℕ) : Bool := (sys.clients c).any fun cl => !cl.returned

def System.apply (sys : System) : Activity → System
  | .start c op clock =>
    if sys.busy c then sys
    else { sys with clients := Function.update sys.clients c (some ⟨op, .begin clock op.prog⟩) }
  | .call c =>
    match sys.clients c with
    | none => sys
    | some cl =>
      let r := cl.proc.step execOn sys.store
      ⟨r.2, Function.update sys.clients c (some ⟨cl.op, r.1⟩)⟩
  | .compaction sel => { sys with store := sys.store.compact sel }

def System.after (sys : System) (turns : List Activity) : System := turns.foldl System.apply sys

/-- A store just opened, with nobody connected. -/
def System.opened (d : Disk) (clock : Clock) : System := ⟨(World.opened d clock).toStore, fun _ => none⟩

/-- The map has the version of the key, when this is of a composite type. -/
def TrackedAt (k : Bytes) (s : Store) : Prop := ∀ v, diskVersion s.disk k = some v → s.versions[k]? = some v

/-! ## The condition -/

/-- The call may change a metadata record or the map. -/
def Call.retracks : Call → Bool
  | .write _ | .versionsSet _ _ | .versionsRemove _ | .versionsClear => true
  | _ => false

/-- From here on the operation changes nothing. -/
def Watching {α : Type} (p : StoreM α) : Prop := p.Only fun o => o.retracks = false

def Op.concerns (k : Bytes) : Op → Prop
  | .keyed key _ => key.1 = k
  | .flushAll => True
  | _ => False

def Op.overwrites : Op → Bool
  | .keyed _ (.set _ _) => true
  | _ => false

/-- The operation has looked at the key and may yet change it. A `set` does not look. -/
def Client.relies (k : Bytes) (cl : Client) : Prop :=
  cl.op.concerns k ∧ cl.op.overwrites = false ∧ cl.proc.made ≠ [] ∧ ¬ Watching cl.proc.rest

def Call.registers (k : Bytes) : Call → Bool
  | .versionsSet key _ => key == k
  | _ => false

/-- The operation has registered a version for the key. -/
def Client.registered (k : Bytes) (cl : Client) : Bool := cl.proc.made.any (Call.registers k)

/-- While an operation relies on a key, a call of another one does not change the version
on disk, nor the map entry if the operation has registered one. -/
def Spares (sys : System) : Activity → Prop
  | .call c => ∀ d cl k, d ≠ c → sys.clients d = some cl → cl.relies k →
      diskVersion (sys.apply (.call c)).store.disk k = diskVersion sys.store.disk k ∧
        (cl.registered k = true → (sys.apply (.call c)).store.versions[k]? = sys.store.versions[k]?)
  | _ => True

/-! ## What an operation takes for granted -/

/-- The version the metadata registers. -/
def Meta.tracked (m : Meta) : Option UInt64 := if m.composite then some m.version else none

def Tie (k : Bytes) (s : Store) : Phase → Prop
  | .loaded m | .live m => diskVersion s.disk k = m.tracked
  | .dropping _ | .absent | .issued _ => diskVersion s.disk k = none
  | .created v => diskVersion s.disk k = none ∧ s.versions[k]? = some v
  | _ => True

/-- `set` has dropped the map entry and not yet written. -/
def Phase.untracks : Phase → Prop
  | .untracked | .untrackedIssued _ => True
  | _ => False

theorem Tie.congr {k : Bytes} {s s' : Store} {ph : Phase} (ht : Tie k s ph)
    (hd : diskVersion s'.disk k = diskVersion s.disk k)
    (hv : (∃ v, ph = .created v) → s'.versions[k]? = s.versions[k]?) : Tie k s' ph := by
  cases ph with
  | created v => exact ⟨hd.trans ht.1, (hv ⟨v, rfl⟩).trans ht.2⟩
  | start | expired | overwriting | untracked | untrackedIssued | emptying | done | gone | emptied => trivial
  | _ => exact hd.trans ht

theorem TrackedAt.congr {k : Bytes} {s s' : Store} (ht : TrackedAt k s)
    (hd : diskVersion s'.disk k = diskVersion s.disk k) (hv : s'.versions[k]? = s.versions[k]?) :
    TrackedAt k s' := by
  intro v h
  rw [hv]
  exact ht v (hd.symm.trans h)

theorem trackedAt_of_none {k : Bytes} {s : Store} (hd : diskVersion s.disk k = none) : TrackedAt k s := by
  intro v h
  rw [hd] at h
  cases h

theorem diskVersion_of_decode {d : Disk} {k raw : Bytes} {m : Meta} (h : d[metaKey k]? = some raw)
    (hd : Meta.decode raw = some m) : diskVersion d k = m.tracked := by
  rw [diskVersion, readMeta, h]
  exact congrArg (fun o : Option Meta => o.bind _) hd

theorem diskVersion_delete (d : Disk) (k : Bytes) :
    diskVersion (applyBatch d [.delete (metaKey k)]) k = none := by
  apply diskVersion_of_missing
  rw [getElem?_applyBatch_single]
  exact if_pos rfl

theorem diskVersion_records {k : Bytes} {v : UInt64} {recs : WriteBatch} (hr : Records k v recs) (d : Disk)
    (k' : Bytes) : diskVersion (applyBatch d recs) k' = diskVersion d k' :=
  diskVersion_congr (hr.getElem?_metaKey d k')

section Move

variable {k : Bytes} {ph ph' : Phase} {o : Call} {l : Clock} {s : Store}

/-- A step of an operation, with what it takes for granted true, leaves that true of
its next phase. -/
theorem tie_move (hmove : Move k ph o (execOn o (l, s)).1 ph') (ht : Tie k s ph) :
    Tie k (execOn o (l, s)).2.2 ph' := by
  generalize ha : (execOn o (l, s)).1 = a at hmove
  cases hmove with
  | missing => exact diskVersion_of_missing ha
  | undecodable hd => trivial
  | load hd he => exact diskVersion_of_decode ha hd
  | loadDue hd he => exact diskVersion_of_decode ha hd
  | inTime hn => exact ht
  | due he hn => trivial
  | expire => exact diskVersion_delete s.disk k
  | @drop why =>
    cases why with
    | due => exact ht
    | deleted => trivial
    | emptied => trivial
  | tick => exact ht
  | read hm hk => exact ht
  | scan hm hp => exact ht
  | update hr hm ht hv => trivial
  | delete => exact diskVersion_delete s.disk k
  | strip hr hm => trivial
  | deleteEmptied => exact diskVersion_delete s.disk k
  | issue => exact ht
  | @register v => exact ⟨ht, (getElem?_insert_bytes s.versions k k v).trans (if_pos rfl)⟩
  | readNew hk => exact ht
  | writeNew hr hm hv he => trivial
  | untrack => trivial
  | issueString => trivial
  | writeString hm => trivial

/-- The map tells the version before the step, so it does after it, unless the step is
the first one of `set`. -/
theorem trackedAt_move (hmove : Move k ph o (execOn o (l, s)).1 ph') (ht : Tie k s ph)
    (hk : TrackedAt k s ∨ ph.untracks) : TrackedAt k (execOn o (l, s)).2.2 ∨ ph'.untracks := by
  have hput : ∀ {v : UInt64} {recs : WriteBatch} (m : Meta), Records k v recs →
      diskVersion (applyBatch s.disk (recs ++ [.put (metaKey k) m.encode])) k = m.tracked :=
    fun m hr => (diskVersion_putMeta hr s.disk m k).trans (if_pos rfl)
  generalize ha : (execOn o (l, s)).1 = a at hmove
  cases hmove with
  | expire => exact .inl (trackedAt_of_none (diskVersion_delete s.disk k))
  | drop => exact .inl (trackedAt_of_none ht)
  | @update m m' recs hr hm hty hv =>
    refine .inl ((hk.resolve_right id).congr ?_ rfl)
    have hsame : m'.tracked = m.tracked := by rw [Meta.tracked, Meta.tracked, Meta.composite, Meta.composite, hty, hv]
    exact (hput m' hr).trans (hsame.trans ht.symm)
  | delete => exact .inl (trackedAt_of_none (diskVersion_delete s.disk k))
  | strip hr hm => exact .inl ((hk.resolve_right id).congr (diskVersion_records hr s.disk k) rfl)
  | deleteEmptied => exact .inl (trackedAt_of_none (diskVersion_delete s.disk k))
  | register => exact .inl (trackedAt_of_none ht)
  | @writeNew v m recs hr hm hv he =>
    refine .inl fun v' hv' => ?_
    have hd : diskVersion (applyBatch s.disk (recs ++ [.put (metaKey k) m.encode])) k = some v := by
      rw [hput m hr, Meta.tracked, if_pos hm, hv]
    obtain rfl : v = v' := Option.some.inj (hd.symm.trans hv')
    exact ht.2
  | untrack => exact .inr trivial
  | issueString => exact .inr trivial
  | @writeString v m hm =>
    refine .inl (trackedAt_of_none ?_)
    have hstring : m.tracked = none := by
      rw [Meta.tracked, Meta.composite, hm]
      rfl
    exact (hput (v := 0) m Records.nil).trans hstring
  | _ => exact .inl (hk.resolve_right id)

/-- What an operation does to its key leaves the other keys alone. -/
theorem foreign_move (hmove : Move k ph o (execOn o (l, s)).1 ph') {k' : Bytes} (hne : k ≠ k') :
    diskVersion (execOn o (l, s)).2.2.disk k' = diskVersion s.disk k' ∧
      (execOn o (l, s)).2.2.versions[k']? = s.versions[k']? := by
  constructor
  · apply diskVersion_congr
    refine hmove.getElem?_foreign (fun h => hne (metaKey_inj.mp h).symm) (fun v hv => ?_) ⟨s, l⟩
    exact hv.ne_metaKey k' rfl
  · generalize (execOn o (l, s)).1 = a at hmove
    cases hmove with
    | drop => exact (getElem?_erase_bytes s.versions k k').trans (if_neg hne)
    | register => exact (getElem?_insert_bytes s.versions k k' _).trans (if_neg hne)
    | untrack => exact (getElem?_erase_bytes s.versions k k').trans (if_neg hne)
    | _ => rfl

end Move

/-- A call that does not retrack changes neither side. -/
theorem still_of_not_retracks {o : Call} (ho : o.retracks = false) (l : Clock) (s : Store) (k : Bytes) :
    diskVersion (execOn o (l, s)).2.2.disk k = diskVersion s.disk k ∧
      (execOn o (l, s)).2.2.versions[k]? = s.versions[k]? := by
  cases o with
  | compactRange => exact ⟨diskVersion_compact (fun _ => true) s k, rfl⟩
  | write | versionsSet | versionsRemove | versionsClear => cases ho
  | _ => exact ⟨rfl, rfl⟩

/-! ## `flush_all` -/

inductive FlushPhase
  | start
  /-- The metadata records it has seen. -/
  | scanned (metas : List (Bytes × Bytes))
  | wiped
  | cleared

inductive FlushMove : FlushPhase → (o : Call) → o.Ans → FlushPhase → Prop
  | scan {metas : List (Bytes × Bytes)} :
    FlushMove .start (.scanPrefix [META_PREFIX]) metas (.scanned metas)
  | scanMore {metas items : List (Bytes × Bytes)} {pre : Bytes} :
    FlushMove (.scanned metas) (.scanPrefix pre) items (.scanned metas)
  | wipe {metas items : List (Bytes × Bytes)} :
    FlushMove (.scanned metas) (.write ((metas ++ items).map fun item => .delete item.1)) () .wiped
  | clear : FlushMove .wiped .versionsClear () .cleared

/-- From `fp` on the program is a rest of `flush_all`. -/
abbrev Flushes {α : Type} (fp : FlushPhase) (p : StoreM α) : Prop :=
  Prog.Follows (fun _ _ _ => True) FlushMove (fun _ fp' => fp' = .cleared) fp p

theorem flushes_flushAll : Flushes .start Op.flushAll.prog := by
  apply Prog.Follows.map
  intro metas _
  refine ⟨_, .scan, fun subkeys _ => ⟨_, .scanMore, fun scores _ => ⟨_, .scanMore, fun _ _ => ?_⟩⟩⟩
  refine ⟨.wiped, ?_, fun _ _ => ⟨_, .clear, rfl⟩⟩
  rw [List.append_assoc]
  exact .wipe

def FlushTie (s : Store) : FlushPhase → Prop
  | .scanned metas => ∀ k, diskVersion s.disk k ≠ none → metaKey k ∈ metas.map Prod.fst
  | .wiped => ∀ k, diskVersion s.disk k = none
  | _ => True

theorem FlushTie.congr {s s' : Store} {fp : FlushPhase} (ht : FlushTie s fp)
    (hd : fp ≠ .start → ∀ k, diskVersion s'.disk k = diskVersion s.disk k) : FlushTie s' fp := by
  cases fp with
  | start => trivial
  | scanned metas =>
    intro k hk
    rw [hd (by simp)] at hk
    exact ht k hk
  | wiped =>
    intro k
    rw [hd (by simp)]
    exact ht k
  | cleared => trivial

section FlushMove

variable {fp fp' : FlushPhase} {o : Call} {l : Clock} {s : Store}

theorem flushTie_move (hmove : FlushMove fp o (execOn o (l, s)).1 fp') (ht : FlushTie s fp) :
    FlushTie (execOn o (l, s)).2.2 fp' := by
  generalize ha : (execOn o (l, s)).1 = a at hmove
  cases hmove with
  | scan =>
    intro k hk
    subst ha
    refine mem_map_fst_prefixScan.mpr ⟨?_, ⟨k, rfl⟩⟩
    rw [ExtTreeMap.mem_iff_isSome_getElem?, Option.isSome_iff_ne_none]
    exact fun hnone => hk (diskVersion_of_missing hnone)
  | scanMore => exact ht
  | @wipe metas items =>
    intro k
    change diskVersion (applyBatch s.disk _) k = none
    by_cases hk : diskVersion s.disk k = none
    · rw [diskVersion_eq_bind, getElem?_deleteAll]
      split
      · rfl
      · rwa [← diskVersion_eq_bind]
    · apply diskVersion_of_missing
      rw [getElem?_deleteAll, if_pos]
      rw [List.map_append]
      exact List.mem_append_left _ (ht k hk)
  | clear => trivial

theorem trackedAt_flushMove (hmove : FlushMove fp o (execOn o (l, s)).1 fp') (ht : FlushTie s fp) {k : Bytes}
    (hk : TrackedAt k s) : TrackedAt k (execOn o (l, s)).2.2 := by
  have ht' := flushTie_move hmove ht
  generalize (execOn o (l, s)).1 = a at hmove
  cases hmove with
  | scan => exact hk
  | scanMore => exact hk
  | wipe => exact trackedAt_of_none (ht' k)
  | clear => exact trackedAt_of_none (ht k)

end FlushMove

/-! ## One client -/

/-- An operation on `key` stands in phase `ph` and may take what it relies on for granted. -/
structure InPhase (s : Store) (key : Key) (op : KeyOp) (ph : Phase)
    (p : Process Call Call.Ans EngineError Reply Clock) : Prop where
  obeys : Obeys False key.1 (Settles (op.allowed False)) ph p.rest
  tie : Watching p.rest ∨ Tie key.1 s ph
  fresh : p.made = [] → ph = op.begins
  created : ∀ v, ph = .created v → .versionsSet key.1 v ∈ p.made
  overwrites : (Op.keyed key op).overwrites = true → ph.overwrites ∨ ph = .done

structure Flushing (s : Store) (fp : FlushPhase) (p : Process Call Call.Ans EngineError Reply Clock) : Prop where
  flushes : Flushes fp p.rest
  tie : Watching p.rest ∨ FlushTie s fp
  fresh : p.made = [] → fp = .start

/-- `ph` is the phase of an operation on one key; the others have none. -/
def ClientOk (s : Store) (ph : Phase) (cl : Client) : Prop :=
  match cl.op with
  | .keyed key op => InPhase s key op ph cl.proc
  | .flushAll => ∃ fp, Flushing s fp cl.proc
  | _ => Watching cl.proc.rest

/-- The client is in the middle of a `set` on `k`. -/
def Untracking (k : Bytes) (ph : Phase) (cl : Client) : Prop :=
  (∃ key op, cl.op = .keyed key op ∧ key.1 = k) ∧ ph.untracks

theorem tie_begins (k : Bytes) (s : Store) (op : KeyOp) : Tie k s op.begins := by
  cases op <;> trivial

theorem tie_of_overwrites {ph : Phase} (hph : ph.overwrites ∨ ph = .done) (k : Bytes) (s : Store) :
    Tie k s ph := by
  cases ph <;> first | trivial | exact absurd hph (by simp [Phase.overwrites])

theorem Move.overwrites {k : Bytes} {ph ph' : Phase} {o : Call} {a : o.Ans} (h : Move k ph o a ph')
    (hph : ph.overwrites ∨ ph = .done) : ph'.overwrites ∨ ph' = .done := by
  cases h <;> first
    | exact .inl trivial
    | exact .inr rfl
    | exact absurd hph (by simp [Phase.overwrites])

theorem Move.to_created {k : Bytes} {ph ph' : Phase} {o : Call} {a : o.Ans} (h : Move k ph o a ph')
    {v : UInt64} (hph : ph' = .created v) : o = .versionsSet k v ∨ ph = .created v := by
  cases h with
  | @drop why => cases why <;> cases hph
  | register =>
    cases hph
    exact .inl rfl
  | readNew hk => exact .inr hph
  | _ => cases hph

/-- A call of another client that spares this one. -/
theorem ClientOk.spared {s s' : Store} {ph : Phase} {cl : Client} (h : ClientOk s ph cl)
    (hs : ∀ k, cl.relies k → diskVersion s'.disk k = diskVersion s.disk k ∧
      (cl.registered k = true → s'.versions[k]? = s.versions[k]?)) : ClientOk s' ph cl := by
  obtain ⟨op, proc⟩ := cl
  cases op with
  | keyed key op =>
    have h : InPhase s key op ph proc := h
    refine { h with tie := ?_ }
    by_cases hset : (Op.keyed key op).overwrites = true
    · exact .inr (tie_of_overwrites (h.overwrites hset) _ _)
    by_cases hmade : proc.made = []
    · rw [h.fresh hmade]
      exact .inr (tie_begins _ _ op)
    by_cases hrest : Watching proc.rest
    · exact .inl hrest
    obtain ⟨hd, hv⟩ := hs key.1 ⟨rfl, by simpa using hset, hmade, hrest⟩
    refine .inr ((h.tie.resolve_left hrest).congr hd ?_)
    rintro ⟨v, hph⟩
    exact hv (List.any_eq_true.mpr ⟨_, h.created v hph, beq_self_eq_true key.1⟩)
  | flushAll =>
    obtain ⟨fp, h⟩ := h
    refine ⟨fp, { h with tie := ?_ }⟩
    by_cases hrest : Watching proc.rest
    · exact .inl hrest
    refine .inr ((h.tie.resolve_left hrest).congr fun hfp k => ?_)
    have hmade : proc.made ≠ [] := fun hnil => hfp (h.fresh hnil)
    exact (hs k ⟨trivial, rfl, hmade, hrest⟩).1
  | dbsize => exact h
  | rawSubkeyCount => exact h
  | compact => exact h

section Step

variable {s : Store} {ph : Phase} {made : List Call} {own : Clock} {o : Call} {next : o.Ans → StoreM Reply}

theorem InPhase.step {key : Key} {op : KeyOp} (h : InPhase s key op ph ⟨made, own, .call o next⟩) :
    ∃ ph', Move key.1 ph o (execOn o (own, s)).1 ph' ∧
      InPhase (execOn o (own, s)).2.2 key op ph' (Process.step execOn ⟨made, own, .call o next⟩ s).1 := by
  obtain ⟨ph', hmove, hnext⟩ := h.obeys (execOn o (own, s)).1 (possible_of_not_fresh _ _ _ _)
  refine ⟨ph', hmove, hnext, ?_, ?_, ?_, fun hset => hmove.overwrites (h.overwrites hset)⟩
  · obtain hrest | ht := h.tie
    · exact .inl (hrest.2 _)
    · exact .inr (tie_move hmove ht)
  · intro hnil
    exact absurd hnil (by simp [Process.step])
  · intro v hph
    obtain rfl | hph := hmove.to_created hph
    · exact List.mem_append_right _ (List.mem_singleton_self _)
    · exact List.mem_append_left _ (h.created v hph)

theorem Flushing.step {fp : FlushPhase} (h : Flushing s fp ⟨made, own, .call o next⟩) :
    ∃ fp', FlushMove fp o (execOn o (own, s)).1 fp' ∧
      Flushing (execOn o (own, s)).2.2 fp' (Process.step execOn ⟨made, own, .call o next⟩ s).1 := by
  obtain ⟨fp', hmove, hnext⟩ := h.flushes (execOn o (own, s)).1 trivial
  refine ⟨fp', hmove, hnext, ?_, fun hnil => absurd hnil (by simp [Process.step])⟩
  obtain hrest | ht := h.tie
  · exact .inl (hrest.2 _)
  · exact .inr (flushTie_move hmove ht)

/-- The next call of a client: it is in order after it, and the map still tells the
version of every key, those in the middle of a `set` apart. -/
theorem ClientOk.step {op : Op} (h : ClientOk s ph ⟨op, ⟨made, own, .call o next⟩⟩) :
    ∃ ph', ClientOk (execOn o (own, s)).2.2 ph' ⟨op, (Process.step execOn ⟨made, own, .call o next⟩ s).1⟩ ∧
      ∀ k, TrackedAt k s ∨ Untracking k ph ⟨op, ⟨made, own, .call o next⟩⟩ →
        TrackedAt k (execOn o (own, s)).2.2 ∨
          Untracking k ph' ⟨op, (Process.step execOn ⟨made, own, .call o next⟩ s).1⟩ := by
  -- A rest that only watches changes neither side of any key.
  have hstill : Watching (.call o next) → ∀ k, TrackedAt k s → TrackedAt k (execOn o (own, s)).2.2 := by
    intro hrest k hk
    obtain ⟨hd, hv⟩ := still_of_not_retracks hrest.1 own s k
    exact hk.congr hd hv
  cases op with
  | keyed key op =>
    have h : InPhase s key op ph ⟨made, own, .call o next⟩ := h
    obtain ⟨ph', hmove, hok⟩ := h.step
    refine ⟨ph', hok, fun k hk => ?_⟩
    by_cases hkey : key.1 = k
    · subst hkey
      have hk' : TrackedAt key.1 s ∨ ph.untracks := hk.imp_right And.right
      have hgoal : TrackedAt key.1 (execOn o (own, s)).2.2 ∨ ph'.untracks := by
        by_cases hph : ph.untracks
        · refine trackedAt_move hmove (tie_of_overwrites (.inl ?_) _ _) (.inr hph)
          cases ph <;> trivial
        · obtain hrest | ht := h.tie
          · exact .inl (hstill hrest _ (hk'.resolve_right hph))
          · exact trackedAt_move hmove ht hk'
      exact hgoal.imp_right fun hph => ⟨⟨key, op, rfl, rfl⟩, hph⟩
    · obtain ⟨hd, hv⟩ := foreign_move hmove hkey
      refine .inl (TrackedAt.congr (hk.resolve_right ?_) hd hv)
      rintro ⟨⟨key', op', he, hk'⟩, -⟩
      cases he
      exact hkey hk'
  | flushAll =>
    obtain ⟨fp, h⟩ := h
    obtain ⟨fp', hmove, hok⟩ := h.step
    refine ⟨ph, ⟨fp', hok⟩, fun k hk => .inl ?_⟩
    have hk : TrackedAt k s := hk.resolve_right fun ⟨⟨key, op, he, _⟩, _⟩ => by cases he
    obtain hrest | ht := h.tie
    · exact hstill hrest k hk
    · exact trackedAt_flushMove hmove ht hk
  | dbsize =>
    have h : Watching (.call o next) := h
    refine ⟨ph, h.2 _, fun k hk => .inl (hstill h k (hk.resolve_right ?_))⟩
    rintro ⟨⟨key, op, he, _⟩, _⟩
    cases he
  | rawSubkeyCount =>
    have h : Watching (.call o next) := h
    refine ⟨ph, h.2 _, fun k hk => .inl (hstill h k (hk.resolve_right ?_))⟩
    rintro ⟨⟨key, op, he, _⟩, _⟩
    cases he
  | compact =>
    have h : Watching (.call o next) := h
    refine ⟨ph, h.2 _, fun k hk => .inl (hstill h k (hk.resolve_right ?_))⟩
    rintro ⟨⟨key, op, he, _⟩, _⟩
    cases he

end Step

/-! ## All clients -/

/-- Every client is in order, and the map tells the version of every key that is not in the
middle of a `set`. -/
structure System.InOrder (sys : System) (ph : ℕ → Phase) : Prop where
  clients : ∀ c cl, sys.clients c = some cl → ClientOk sys.store (ph c) cl
  tracked : ∀ k, TrackedAt k sys.store ∨ ∃ c cl, sys.clients c = some cl ∧ Untracking k (ph c) cl

theorem inOrder_opened (d : Disk) (clock : Clock) : (System.opened d clock).InOrder fun _ => .start where
  clients := by
    intro c cl h
    cases h
  tracked := by
    refine fun k => .inl fun v hv => ?_
    simp only [System.opened, opened_eq] at hv ⊢
    rw [getElem?_diskVersions]
    exact hv

/-- An operation that has returned is not in the middle of a `set`. -/
theorem not_untracking_of_returned {s : Store} {ph : Phase} {cl : Client} (h : ClientOk s ph cl)
    (hr : cl.returned = true) (k : Bytes) : ¬ Untracking k ph cl := by
  rintro ⟨⟨key, op, he, -⟩, hph⟩
  obtain ⟨op', made, own, rest⟩ := cl
  obtain rfl : op' = .keyed key op := he
  have hobeys := InPhase.obeys h
  cases rest with
  | ok a => cases ph <;> first | exact hph | exact hobeys
  | err e => cases ph <;> first | exact hph | exact hobeys
  | call o next => cases hr

theorem clientOk_begin (s : Store) (op : Op) (clock : Clock) :
    ∃ ph, ClientOk s ph ⟨op, .begin clock op.prog⟩ := by
  cases op with
  | keyed key op =>
    refine ⟨op.begins, op.obeys key.2, .inr (tie_begins _ _ op), fun _ => rfl, fun v hv => ?_, fun hset => ?_⟩
    · cases op <;> cases hv
    · cases op <;> first | exact .inl trivial | cases hset
  | flushAll => exact ⟨.start, .start, flushes_flushAll, .inr trivial, fun _ => rfl⟩
  | dbsize => exact ⟨.start, rfl, fun _ => trivial⟩
  | rawSubkeyCount => exact ⟨.start, rfl, fun _ => ⟨rfl, fun _ => trivial⟩⟩
  | compact => exact ⟨.start, rfl, fun _ => trivial⟩

/-- One client moves on and the others are spared. -/
theorem System.InOrder.update {sys : System} {ph : ℕ → Phase} (h : sys.InOrder ph) {c : ℕ} {s : Store}
    {cl : Client} {ph₀ : Phase} (hok : ClientOk s ph₀ cl)
    (hothers : ∀ d cl, d ≠ c → sys.clients d = some cl → ClientOk s (ph d) cl)
    (htracked : ∀ k, (TrackedAt k sys.store ∨ ∃ cl, sys.clients c = some cl ∧ Untracking k (ph c) cl) →
      TrackedAt k s ∨ Untracking k ph₀ cl) :
    (System.mk s (Function.update sys.clients c (some cl))).InOrder (Function.update ph c ph₀) := by
  refine ⟨fun d cl' hd => ?_, fun k => ?_⟩
  · dsimp only at hd ⊢
    by_cases hdc : d = c
    · subst hdc
      rw [Function.update_self] at hd ⊢
      obtain rfl := Option.some.inj hd
      exact hok
    · rw [Function.update_of_ne hdc] at hd ⊢
      exact hothers d cl' hdc hd
  · dsimp only
    -- A `set` of another client goes on; one of this client is the step's own business.
    by_cases hother : ∃ d cl', d ≠ c ∧ sys.clients d = some cl' ∧ Untracking k (ph d) cl'
    · obtain ⟨d, cl', hdc, hd, hun⟩ := hother
      refine .inr ⟨d, cl', (Function.update_of_ne hdc _ _).trans hd, ?_⟩
      rw [Function.update_of_ne hdc]
      exact hun
    · have hk : TrackedAt k sys.store ∨ ∃ cl, sys.clients c = some cl ∧ Untracking k (ph c) cl := by
        refine (h.tracked k).imp_right ?_
        rintro ⟨d, cl', hd, hun⟩
        obtain rfl : d = c := by_contra fun hdc => hother ⟨d, cl', hdc, hd, hun⟩
        exact ⟨cl', hd, hun⟩
      refine (htracked k hk).imp_right fun hun => ⟨c, cl, Function.update_self _ _ _, ?_⟩
      rw [Function.update_self]
      exact hun

theorem inOrder_start {sys : System} {ph : ℕ → Phase} (h : sys.InOrder ph) (c : ℕ) (op : Op) (clock : Clock) :
    ∃ ph', (sys.apply (.start c op clock)).InOrder ph' := by
  by_cases hbusy : sys.busy c = true
  · refine ⟨ph, ?_⟩
    rw [System.apply, if_pos hbusy]
    exact h
  · obtain ⟨ph₀, hok⟩ := clientOk_begin sys.store op clock
    refine ⟨Function.update ph c ph₀, ?_⟩
    rw [System.apply, if_neg hbusy]
    refine h.update hok (fun d cl _ hd => h.clients d cl hd) fun k hk => .inl (hk.resolve_right ?_)
    rintro ⟨cl, hc, hun⟩
    have hr : cl.returned = true := by simpa [System.busy, hc] using hbusy
    exact not_untracking_of_returned (h.clients c cl hc) hr k hun

theorem inOrder_compaction {sys : System} {ph : ℕ → Phase} (h : sys.InOrder ph) (sel : Bytes → Bool) :
    (sys.apply (.compaction sel)).InOrder ph where
  clients c cl hc := (h.clients c cl hc).spared fun k _ => ⟨diskVersion_compact sel sys.store k, fun _ => rfl⟩
  tracked k := (h.tracked k).imp_left fun hk => hk.congr (diskVersion_compact sel sys.store k) rfl

/-- A client without a call to make leaves everything as it is. -/
theorem System.apply_call_of_next_none {sys : System} {c : ℕ}
    (h : ∀ cl, sys.clients c = some cl → cl.proc.next = none) : sys.apply (.call c) = sys := by
  rw [System.apply]
  cases hc : sys.clients c with
  | none => rfl
  | some cl =>
    dsimp only
    rw [Process.step_of_next_none _ (h cl hc)]
    exact congrArg (System.mk sys.store) (Function.update_eq_self_iff.mpr hc.symm)

theorem inOrder_call {sys : System} {ph : ℕ → Phase} (h : sys.InOrder ph) (c : ℕ)
    (hspares : Spares sys (.call c)) : ∃ ph', (sys.apply (.call c)).InOrder ph' := by
  by_cases hidle : ∀ cl, sys.clients c = some cl → cl.proc.next = none
  · refine ⟨ph, ?_⟩
    rw [System.apply_call_of_next_none hidle]
    exact h
  · push Not at hidle
    obtain ⟨⟨op, proc⟩, hc, hnext⟩ := hidle
    obtain ⟨o, ho⟩ := Option.ne_none_iff_exists'.mp hnext
    obtain ⟨next, hp⟩ := Process.next_eq_some ho
    have happly : sys.apply (.call c) = ⟨(proc.step execOn sys.store).2,
        Function.update sys.clients c (some ⟨op, (proc.step execOn sys.store).1⟩)⟩ := by
      rw [System.apply, hc]
    unfold Spares at hspares
    dsimp only at hspares
    rw [happly] at hspares ⊢
    have hok := h.clients c _ hc
    dsimp only at hp
    rw [hp] at hok hspares hc ⊢
    obtain ⟨ph₀, hok', htracked⟩ := hok.step
    refine ⟨Function.update ph c ph₀, h.update hok' ?_ fun k hk => htracked k (hk.imp_right ?_)⟩
    · exact fun d cl hdc hd => (h.clients d cl hd).spared fun k hk => hspares d cl k hdc hd hk
    · rintro ⟨cl, hcl, hun⟩
      obtain rfl := Option.some.inj (hc.symm.trans hcl)
      exact hun

/-- In every run whose calls spare what the others rely on, whenever nothing is in progress
the map tells the version of every composite key. -/
theorem map_tracks_disk_at_rest (d : Disk) (clock : Clock) (turns : List Activity)
    (hspares : Meets System.apply Spares (System.opened d clock) turns)
    (hrest : ((System.opened d clock).after turns).AtRest) (k : Bytes) (v : UInt64)
    (hv : diskVersion ((System.opened d clock).after turns).store.disk k = some v) :
    ((System.opened d clock).after turns).store.versions[k]? = some v := by
  have hrun : ∃ ph, ((System.opened d clock).after turns).InOrder ph := by
    refine hspares.induction (I := fun sys => ∃ ph, sys.InOrder ph) (fun sys turn hturn ⟨ph, h⟩ => ?_)
      ⟨_, inOrder_opened d clock⟩
    cases turn with
    | start c op clock => exact inOrder_start h c op clock
    | call c => exact inOrder_call h c hturn
    | compaction sel => exact ⟨ph, inOrder_compaction h sel⟩
  obtain ⟨ph, h⟩ := hrun
  refine (h.tracked k).resolve_right ?_ v hv
  rintro ⟨c, cl, hc, hun⟩
  exact not_untracking_of_returned (h.clients c cl hc) (hrest c cl hc) k hun

/-! ## Runs of a few clients -/

def Activity.startsIn (ds : List ℕ) : Activity → Bool
  | .start c _ _ => ds.contains c
  | _ => true

theorem clients_apply_none {ds : List ℕ} {sys : System} (hs : ∀ d ∉ ds, sys.clients d = none) {turn : Activity}
    (ht : turn.startsIn ds = true) : ∀ d ∉ ds, (sys.apply turn).clients d = none := by
  intro d hd
  cases turn with
  | start c op clock =>
    have hc : d ≠ c := by
      rintro rfl
      exact hd (by simpa [Activity.startsIn] using ht)
    unfold System.apply
    dsimp only
    split
    · exact hs d hd
    · exact (Function.update_of_ne hc _ _).trans (hs d hd)
  | call c =>
    unfold System.apply
    dsimp only
    split
    · exact hs d hd
    · rename_i cl hc
      have hne : d ≠ c := by
        rintro rfl
        rw [hs d hd] at hc
        cases hc
      exact (Function.update_of_ne hne _ _).trans (hs d hd)
  | compaction sel => exact hs d hd

/-- Whether the call of `c` leaves the keys of the other clients in `ds` alone. -/
def sparesAmong (ds : List ℕ) (sys : System) : Activity → Bool
  | .call c => ds.all fun d => d == c || (sys.clients d).all fun cl =>
      cl.proc.made.isEmpty || cl.returned || match cl.op with
        | .keyed key _ =>
          diskVersion (sys.apply (.call c)).store.disk key.1 == diskVersion sys.store.disk key.1 &&
            (!cl.registered key.1 ||
              (sys.apply (.call c)).store.versions[key.1]? == sys.store.versions[key.1]?)
        | _ => false
  | .start c _ _ => ds.contains c
  | .compaction _ => true

theorem Client.relies.busy {k : Bytes} {cl : Client} (h : cl.relies k) : cl.returned = false := by
  obtain ⟨op, made, own, rest⟩ := cl
  cases rest with
  | ok a => exact absurd trivial h.2.2.2
  | err e => exact absurd trivial h.2.2.2
  | call o next => rfl

theorem spares_of_check {ds : List ℕ} {sys : System} (hs : ∀ d ∉ ds, sys.clients d = none) {turn : Activity}
    (h : sparesAmong ds sys turn = true) : Spares sys turn := by
  cases turn with
  | start c op clock => trivial
  | compaction sel => trivial
  | call c =>
    intro d cl k hdc hd hrel
    have hmem : d ∈ ds := by
      by_contra hd'
      rw [hs d hd'] at hd
      cases hd
    have hcheck := List.all_eq_true.mp h d hmem
    obtain ⟨op, proc⟩ := cl
    cases op with
    | keyed key op =>
      obtain rfl : key.1 = k := hrel.1
      have hmade : proc.made ≠ [] := hrel.2.2.1
      have hbusy := hrel.busy
      simp only [hd, Option.all_some, hbusy, Bool.or_eq_true, beq_iff_eq, hdc, false_or, List.isEmpty_iff,
        hmade, Bool.false_eq_true, Bool.and_eq_true, Bool.not_eq_true'] at hcheck
      exact ⟨hcheck.1, fun hreg => hcheck.2.resolve_left (by simp [hreg])⟩
    | flushAll =>
      have hmade : proc.made ≠ [] := hrel.2.2.1
      have hbusy := hrel.busy
      simp [hd, hbusy, hdc, hmade] at hcheck
    | dbsize => exact hrel.1.elim
    | rawSubkeyCount => exact hrel.1.elim
    | compact => exact hrel.1.elim

theorem meets_spares_of_check {ds : List ℕ} {turns : List Activity} {sys : System}
    (hs : ∀ d ∉ ds, sys.clients d = none)
    (h : Meets System.apply (fun sys turn => sparesAmong ds sys turn = true) sys turns) :
    Meets System.apply Spares sys turns := by
  induction turns generalizing sys with
  | nil => trivial
  | cons turn turns ih =>
    refine ⟨spares_of_check hs h.1, ih (clients_apply_none hs ?_) h.2⟩
    cases turn with
    | start c op clock => exact h.1
    | call c => rfl
    | compaction sel => rfl

theorem atRest_of_check {ds : List ℕ} {turns : List Activity} {sys : System}
    (hs : ∀ d ∉ ds, sys.clients d = none) (ht : turns.all (Activity.startsIn ds) = true)
    (hr : (ds.all fun d => ((sys.after turns).clients d).all Client.returned) = true) :
    (sys.after turns).AtRest := by
  have hnone : ∀ d ∉ ds, (sys.after turns).clients d = none := by
    induction turns generalizing sys with
    | nil => exact hs
    | cons turn turns ih =>
      rw [List.all_cons, Bool.and_eq_true] at ht
      exact ih (clients_apply_none hs ht.1) ht.2 hr
  intro c cl hc
  by_cases hmem : c ∈ ds
  · simpa [hc] using List.all_eq_true.mp hr c hmem
  · rw [hnone c hmem] at hc
    cases hc

/-- A hash is deleted and built anew by two clients; the second looks after the metadata is
gone and before the map entry is. -/
def overlapped : List Activity :=
  [.start 0 (.keyed Key.k (.hset [([102], [118])])) (stillClock 7 5), .call 0, .call 0, .call 0, .call 0,
    .call 0, .start 0 (.keyed Key.k .del) (stillClock 7 6),
    .start 1 (.keyed Key.k (.hset [([103], [119])])) (stillClock 7 7), .call 0, .call 0, .call 1, .call 0,
    .call 1, .call 1, .call 1, .call 1]

theorem map_tracks_disk_overlapped :
    Meets System.apply Spares (System.opened ∅ (stillClock 7 5)) overlapped ∧
      diskVersion ((System.opened ∅ (stillClock 7 5)).after overlapped).store.disk [107] = some 7 ∧
      ((System.opened ∅ (stillClock 7 5)).after overlapped).store.versions[([107] : Bytes)]? = some 7 := by
  have hs : ∀ d ∉ [0, 1], (System.opened ∅ (stillClock 7 5)).clients d = none := fun _ _ => rfl
  have hspares : Meets System.apply Spares (System.opened ∅ (stillClock 7 5)) overlapped :=
    meets_spares_of_check hs (by decide +kernel)
  have hv : diskVersion ((System.opened ∅ (stillClock 7 5)).after overlapped).store.disk [107] = some 7 := by
    decide +kernel
  exact ⟨hspares, hv, map_tracks_disk_at_rest ∅ (stillClock 7 5) overlapped hspares
    (atRest_of_check hs (by decide) (by decide +kernel)) [107] 7 hv⟩

/-- Two clients create one hash: the versions are registered in one order and the metadata
written in the other. -/
def crossed : List Activity :=
  [.start 0 (.keyed Key.k (.hset [([102], [118])])) (stillClock 7 5),
    .start 1 (.keyed Key.k (.hset [([103], [119])])) (stillClock 7 5), .call 0, .call 1, .call 0, .call 1,
    .call 1, .call 0, .call 0, .call 0, .call 1, .call 1]

theorem map_loses_disk_crossed :
    ¬ ∀ (d : Disk) (clock : Clock) (turns : List Activity), ((System.opened d clock).after turns).AtRest →
      ∀ k v, diskVersion ((System.opened d clock).after turns).store.disk k = some v →
        ((System.opened d clock).after turns).store.versions[k]? = some v := by
  intro h
  have hs : ∀ d ∉ [0, 1], (System.opened ∅ (stillClock 7 5)).clients d = none := fun _ _ => rfl
  have hrest : ((System.opened ∅ (stillClock 7 5)).after crossed).AtRest :=
    atRest_of_check hs (by decide) (by decide +kernel)
  exact absurd (h ∅ (stillClock 7 5) crossed hrest [107] 6 (by decide +kernel)) (by decide +kernel)

end GameStore
