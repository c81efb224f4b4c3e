import GameStore.Observation

/-!
# Conversations

A request runs a few operations, each on what the last one left. If it does not ask for the
number of records and lists no hash field twice, what it replies depends on the store only
through the keyspace the store holds, so a whole conversation of such requests does too.
-/

namespace GameStore

open Lib

/-! ## Commands -/

/-- Twins give the same result and stay twins, if there is room for `n` more. -/
def Agree {α : Type} (n : ℕ) (m : CommandM α) : Prop :=
  ∀ left w w', Twins (left + n) w w' → (m w').1 = (m w).1 ∧ Twins left (m w).2 (m w').2

section Agree

variable {n k : ℕ} {α β : Type}

theorem Agree.mono {m : CommandM α} (hn : n ≤ k) (h : Agree n m) : Agree k m :=
  fun left w w' hw => h left w w' (hw.mono (by omega))

theorem agree_pure (a : α) : Agree n (pure a : CommandM α) :=
  fun left w w' hw => ⟨rfl, hw.mono (by omega)⟩

theorem Agree.bind {m : CommandM α} {f : α → CommandM β} (hm : Agree n m) (hf : ∀ a, Agree k (f a)) :
    Agree (n + k) (m >>= f) := by
  intro left w w' hw
  obtain ⟨hres, hleft⟩ := hm (left + k) w w' (hw.mono (by omega))
  change (f (m w').1 (m w').2).1 = (f (m w).1 (m w).2).1 ∧ Twins left (f (m w).1 (m w).2).2 (f (m w').1 (m w').2).2
  rw [hres]
  exact hf _ left _ _ hleft

theorem Agree.then {m : CommandM α} {f : α → CommandM β} (hm : Agree 0 m) (hf : ∀ a, Agree k (f a)) :
    Agree k (m >>= f) := by
  have hbind := hm.bind hf
  rwa [Nat.zero_add] at hbind

/-- An operation, whatever part of its reply the command looks at. -/
theorem agree_ask {op : Op} {p : StoreM α} {g : α → Reply} (hp : op.prog = g <$> p)
    (hg : Function.Injective g) (hproper : op.Proper) (hop : op ≠ .rawSubkeyCount) : Agree op.cost (ask p) := by
  intro left w w' hw
  obtain ⟨hreply, hleft⟩ := hw.step hproper hop
  simp only [Op.run, hp, Prog.run_map] at hreply hleft
  refine ⟨?_, hleft⟩
  change (p.run exec w').1 = (p.run exec w).1
  revert hreply
  rcases (p.run exec w').1 with e' | a' <;> rcases (p.run exec w).1 with e | a <;> intro hreply
  · exact congrArg Except.error (Except.error.inj hreply)
  · cases hreply
  · cases hreply
  · exact congrArg Except.ok (hg (Except.ok.inj hreply))

theorem agree_replyWith {p : StoreM α} (hp : Agree n (ask p)) (reply : α → Frame) : Agree n (replyWith p reply) := by
  refine Agree.bind (k := 0) hp fun r => ?_
  cases r <;> exact agree_pure _

theorem agree_nowMs : Agree 0 (ask nowMs) := by
  intro left w w' hw
  obtain ⟨p, p', c, ks, hp, hp', hroom⟩ := hw.same
  refine ⟨congrArg (fun s => Except.ok (Stream'.head s)) hw.ms, congrArg Stream'.tail hw.ms, hw.lasts, p, p', c, ks,
    ⟨hp.keys, hp.agrees, hp.ahead⟩, ⟨hp'.keys, hp'.agrees, hp'.ahead⟩, hroom⟩

/-- An operation on a key that fits its length field. -/
theorem agree_keyed {key : Bytes} (hkey : key.length < 2 ^ 32) (op : KeyOp) {p : StoreM α} {g : α → Reply}
    (hp : op.prog key = g <$> p) (hg : Function.Injective g) (hproper : op.Proper ⟨key, hkey⟩) :
    Agree (op.listed + 1) (ask p) :=
  agree_ask (show (Op.keyed ⟨key, hkey⟩ op).prog = g <$> p from hp) hg hproper (by simp)

end Agree

section Replies

theorem value_injective : Function.Injective Reply.value := fun _ _ h => by injection h

theorem bool_injective : Function.Injective Reply.bool := fun _ _ h => by injection h

theorem int_injective : Function.Injective Reply.int := fun _ _ h => by injection h

theorem text_injective : Function.Injective Reply.text := fun _ _ h => by injection h

theorem pairs_injective : Function.Injective Reply.pairs := fun _ _ h => by injection h

theorem values_injective : Function.Injective Reply.values := fun _ _ h => by injection h

theorem score_injective : Function.Injective Reply.score := fun _ _ h => by injection h

theorem scored_injective : Function.Injective Reply.scored := fun _ _ h => by injection h

end Replies

theorem length_pairUp (l : List Bytes) : (pairUp l).length ≤ l.length ∧
    (l ≠ [] → l.length % 2 = 0 → pairUp l ≠ []) := by
  induction l using pairUp.induct with
  | case1 a b rest ih =>
    simp only [pairUp, List.length_cons]
    exact ⟨by omega, by simp⟩
  | case2 l hl =>
    cases l with
    | nil => simp [pairUp]
    | cons a l =>
      cases l with
      | nil => simp [pairUp]
      | cons b rest => exact absurd rfl (hl a b rest)

section Scores

variable {ft : FloatText}

/-- A score that is accepted is a number. -/
theorem isNaN_of_parseScore {raw : Bytes} {v : F64} (h : parseScore ft raw = some v) : v.isNaN = false := by
  obtain ⟨s, -, h⟩ := Option.bind_eq_some_iff.mp h
  split at h
  · cases h
  · obtain ⟨u, -, h⟩ := Option.bind_eq_some_iff.mp h
    split at h
    · cases h
    · rename_i hnan
      rw [← Option.some.inj h]
      simpa using hnan

theorem isNaN_of_parseScoreBound {raw : Bytes} {b : F64 × Bool} (h : parseScoreBound ft raw = some b) :
    b.1.isNaN = false := by
  unfold parseScoreBound at h
  split at h <;> obtain ⟨v, hv, rfl⟩ := Option.map_eq_some_iff.mp h <;> exact isNaN_of_parseScore hv

theorem parsePairs_some {l : List (Bytes × Bytes)} {pairs : List (F64 × Bytes)}
    (h : parsePairs ft l = some pairs) : pairs.length = l.length ∧ ∀ p ∈ pairs, p.1.isNaN = false := by
  induction l generalizing pairs with
  | nil =>
    obtain rfl : [] = pairs := Option.some.inj h
    exact ⟨rfl, fun p hp => absurd hp List.not_mem_nil⟩
  | cons sm l ih =>
    obtain ⟨score, hscore, h⟩ := Option.bind_eq_some_iff.mp h
    obtain ⟨rest, hrest, rfl⟩ := Option.map_eq_some_iff.mp h
    obtain ⟨hlen, hnum⟩ := ih hrest
    exact ⟨congrArg Nat.succ hlen, List.forall_mem_cons.mpr ⟨isNaN_of_parseScore hscore, hnum⟩⟩

end Scores

section Handlers

variable (ft : FloatText) (version : RespVersion) {args : List Bytes}

theorem agree_setOptions (opts : List Bytes) (expireMs : UInt64) : Agree 0 (setOptions opts expireMs) := by
  fun_induction setOptions opts expireMs with
  | case8 =>
    rename_i ih
    refine Agree.bind (k := 0) agree_nowMs fun r => ?_
    cases r with
    | error e => exact agree_pure _
    | ok now =>
      dsimp only
      split
      · exact agree_pure _
      · exact ih _
  | _ => exact agree_pure _

variable (hshort : ∀ a ∈ args, a.length < 2 ^ 32)

include hshort

theorem arg_short (i : ℕ) : (arg args i).length < 2 ^ 32 := by
  unfold arg
  rw [List.getD_eq_getElem?_getD]
  cases h : args[i]? with
  | none => simp
  | some a => exact hshort a (List.mem_of_getElem? h)

/-- A command that makes one operation on its first argument. -/
theorem agree_single {α : Type} (op : KeyOp) {p : StoreM α} {g : α → Reply} (hp : op.prog (arg args 1) = g <$> p)
    (hg : Function.Injective g) (hproper : op.Proper ⟨arg args 1, arg_short hshort 1⟩) (reply : α → Frame) :
    Agree (op.listed + 1) (replyWith p reply) := agree_replyWith (agree_keyed _ op hp hg hproper) reply

theorem agree_set : Agree 1 (setCommand args) := by
  refine (agree_setOptions _ _).then fun r => ?_
  cases r with
  | error reply => exact agree_pure _
  | ok expireMs =>
    exact agree_single hshort (.set _ _) rfl (fun _ _ _ => rfl) ⟨rfl, trivial, trivial, trivial⟩ _

omit hshort in
theorem agree_countKeys {p : Bytes → StoreM Bool} (op : KeyOp) (hp : ∀ k, op.prog k = Reply.bool <$> p k)
    (hproper : ∀ key, op.Proper key) (hcost : op.listed = 0) (keys : List Bytes)
    (hkeys : ∀ k ∈ keys, k.length < 2 ^ 32) (n : ℤ) : Agree keys.length (countKeys p keys n) := by
  induction keys generalizing n with
  | nil => exact agree_pure _
  | cons key keys ih =>
    obtain ⟨hkey, hkeys⟩ := List.forall_mem_cons.mp hkeys
    have hask := agree_keyed hkey op (hp key) bool_injective (hproper _)
    rw [hcost] at hask
    rw [List.length_cons, Nat.add_comm]
    refine Agree.bind hask fun r => ?_
    rcases r with e | _ | _
    · exact agree_pure _
    · exact ih hkeys n
    · exact ih hkeys (n + 1)

theorem agree_expireGeneric (unitMs : Int64) (cmd : String) : Agree 1 (expireGeneric unitMs cmd args) := by
  unfold expireGeneric
  split
  · exact agree_pure _
  · split
    · exact agree_pure _
    · refine agree_nowMs.then fun r => ?_
      cases r with
      | error e => exact agree_pure _
      | ok now =>
        exact agree_single hshort (.expireAt _) rfl bool_injective ⟨rfl, trivial, trivial, trivial⟩ _

theorem agree_hmgetLoop (fields : List Bytes) (items : List Frame) :
    Agree fields.length (hmgetLoop (arg args 1) fields items) := by
  induction fields generalizing items with
  | nil => exact agree_pure _
  | cons field fields ih =>
    have hask : Agree 1 (ask (hget (arg args 1) field)) :=
      agree_keyed (arg_short hshort 1) (.hget field) rfl value_injective ⟨rfl, trivial, trivial, trivial⟩
    rw [List.length_cons, Nat.add_comm]
    refine Agree.bind hask fun r => ?_
    cases r with
    | error e => exact agree_pure _
    | ok v => exact ih _

theorem agree_hset (hlen : 4 ≤ args.length) (hfields : ((pairUp (args.drop 2)).map Prod.fst).Nodup) :
    Agree args.length (hsetCommand args) := by
  unfold hsetCommand
  dsimp only
  split
  · exact agree_pure _
  · rename_i heven
    have hdrop : (args.drop 2).length = args.length - 2 := List.length_drop
    obtain ⟨hle, hne⟩ := length_pairUp (args.drop 2)
    have hcalled : KeyOp.wellCalled (.hset (pairUp (args.drop 2))) = true := by
      simp only [KeyOp.wellCalled, Bool.not_eq_eq_eq_not, Bool.not_true, List.isEmpty_eq_false_iff]
      refine hne (fun hnil => ?_) (by omega)
      rw [hnil] at hdrop
      simp only [List.length_nil] at hdrop
      omega
    refine (agree_single hshort (.hset _) rfl int_injective ⟨hcalled, hfields, trivial, trivial⟩ _).mono ?_
    simp only [KeyOp.listed]
    omega

/-- The commands that hand all their other arguments on as a list. -/
theorem agree_listing (hlen : 3 ≤ args.length) (op : List Bytes → KeyOp) {p : Bytes → List Bytes → StoreM ℤ}
    (hp : ∀ k l, (op l).prog k = Reply.int <$> p k l) (hlisted : ∀ l, (op l).listed ≤ l.length)
    (hproper : ∀ key, args.drop 2 ≠ [] → (op (args.drop 2)).Proper key) :
    Agree args.length (replyWith (p (arg args 1) (args.drop 2)) integer) := by
  have hdrop : (args.drop 2).length = args.length - 2 := List.length_drop
  refine (agree_single hshort (op (args.drop 2)) (hp _ _) int_injective (hproper _ ?_) _).mono ?_
  · intro hnil
    rw [hnil] at hdrop
    simp only [List.length_nil] at hdrop
    omega
  · have := hlisted (args.drop 2)
    omega

theorem agree_zadd (hlen : 4 ≤ args.length) : Agree args.length (zaddCommand ft args) := by
  unfold zaddCommand
  dsimp only
  split
  · exact agree_pure _
  · split
    · exact agree_pure _
    · rename_i heven
      split
      · exact agree_pure _
      · rename_i pairs hpairs
        have hdrop : (args.drop 2).length = args.length - 2 := List.length_drop
        obtain ⟨hsame, hnum⟩ := parsePairs_some hpairs
        obtain ⟨hle, hne⟩ := length_pairUp (args.drop 2)
        have hpos : 0 < (pairUp (args.drop 2)).length := by
          apply List.length_pos_of_ne_nil
          refine hne (fun hnil => ?_) (by omega)
          rw [hnil] at hdrop
          simp only [List.length_nil] at hdrop
          omega
        have hcalled : KeyOp.wellCalled (.zadd pairs) = true := by
          simp only [KeyOp.wellCalled, Bool.not_eq_eq_eq_not, Bool.not_true, List.isEmpty_eq_false_iff]
          apply List.ne_nil_of_length_pos
          omega
        refine (agree_single hshort (.zadd pairs) rfl int_injective ⟨hcalled, trivial, hnum, trivial⟩ _).mono ?_
        simp only [KeyOp.listed]
        omega

theorem agree_zrange : Agree 1 (zrangeCommand ft version args) := by
  unfold zrangeCommand
  split
  · dsimp only
    split
    · exact agree_pure _
    · split
      · exact agree_pure _
      · exact agree_single hshort (.zrange _ _) rfl scored_injective ⟨rfl, trivial, trivial, trivial⟩ _
  · exact agree_pure _

theorem agree_zrangebyscore : Agree 1 (zrangebyscoreCommand ft version args) := by
  unfold zrangebyscoreCommand
  split
  · rename_i hmin hmax
    split
    · exact agree_pure _
    · exact agree_single hshort (.zrangeByScore _ _ _ _) rfl scored_injective
        ⟨rfl, trivial, trivial, isNaN_of_parseScoreBound hmin, isNaN_of_parseScoreBound hmax⟩ _
  · exact agree_pure _

theorem agree_lrange : Agree 1 (lrangeCommand args) := by
  unfold lrangeCommand
  split
  · exact agree_single hshort (.lrange _ _) rfl values_injective ⟨rfl, trivial, trivial, trivial⟩ _
  · exact agree_pure _

theorem agree_pop (hlen : 2 ≤ args.length) : Agree args.length (popCommand args) := by
  unfold popCommand
  dsimp only
  split
  · exact agree_pure _
  · split
    · exact agree_pure _
    · have hask : Agree 1 (ask (llen (arg args 1))) :=
        agree_keyed (arg_short hshort 1) .llen rfl int_injective ⟨rfl, trivial, trivial, trivial⟩
      refine (Agree.bind (k := 1) hask fun r => ?_).mono hlen
      cases r with
      | error e => exact agree_pure _
      | ok n =>
        dsimp only
        split
        · exact agree_pure _
        · exact agree_single hshort (.pop _ _) rfl values_injective ⟨rfl, trivial, trivial, trivial⟩ _

end Handlers

/-! ## Requests -/

/-- What a request must be for the stores to answer it alike: its arguments fit their length
fields, no field of a hash is listed twice in one call, and it does not ask for the number of
records. -/
structure Regular (args : List Bytes) : Prop where
  short : ∀ a ∈ args, a.length < 2 ^ 32
  sets : upperName (arg args 0) ∈ ["HSET", "HMSET"] → ((pairUp (args.drop 2)).map Prod.fst).Nodup
  dels : upperName (arg args 0) = "HDEL" → (args.drop 2).Nodup
  named : upperName (arg args 0) ≠ "RAWCOUNT"

section Requests

variable (ft : FloatText) (version : RespVersion) (connId : Int64) {args : List Bytes}

theorem proper_of_isRead {op : KeyOp} (hop : op.isRead) (hbounded : op.bounded) (key : Key) : op.Proper key := by
  cases op <;> first | exact ⟨rfl, trivial, trivial, hbounded⟩ | cases hop

theorem called_of_ne_nil {α : Type} {l : List α} (h : l ≠ []) : (!l.isEmpty) = true := by
  simpa using h

theorem agree_handler (hargs : Regular args) (hne : args ≠ []) :
    ∀ spec ∈ standardCommands ft, spec.name = upperName (arg args 0) → arityMatches spec.arity args.length →
      Agree args.length (spec.handler version args) := by
  have hone : 1 ≤ args.length := List.length_pos_of_ne_nil hne
  have hshort := hargs.short
  have hkeys : ∀ k ∈ args.drop 1, k.length < 2 ^ 32 := fun k hk => hshort k (List.mem_of_mem_drop hk)
  have hread : ∀ {α : Type} (op : KeyOp) {p : StoreM α} {g : α → Reply} (_ : op.prog (arg args 1) = g <$> p)
      (_ : Function.Injective g) (_ : op.isRead) (_ : op.bounded) (reply : α → Frame),
      Agree args.length (replyWith p reply) := by
    intro α op p g hp hg hop hb reply
    have hnone : op.listed = 0 := by cases op <;> first | rfl | cases hop
    refine (agree_single hshort op hp hg (proper_of_isRead hop hb _) reply).mono ?_
    omega
  have hbool : ∀ (op : KeyOp) {p : Bytes → StoreM Bool}, (∀ k, op.prog k = Reply.bool <$> p k) →
      (∀ key, op.Proper key) → op.listed = 0 → Agree args.length (countKeys p (args.drop 1) 0) := by
    intro op p hp hproper hlisted
    refine (agree_countKeys op hp hproper hlisted _ hkeys 0).mono ?_
    rw [List.length_drop]
    omega
  have hsets : ∀ {name : String}, name = upperName (arg args 0) → name ∈ ["HSET", "HMSET"] →
      arityMatches (-4) args.length → Agree args.length (hsetCommand args) := by
    intro name hname hmem harity
    exact agree_hset hshort (by simpa [arityMatches] using harity) (hargs.sets (hname ▸ hmem))
  have hpush : ∀ left, arityMatches (-3) args.length →
      Agree args.length (replyWith (push (arg args 1) (args.drop 2) left) integer) := by
    intro left harity
    exact agree_listing hshort (by simpa [arityMatches] using harity) (fun l => .push l left)
      (p := fun k l => push k l left) (fun _ _ => rfl) (fun _ => le_rfl)
      fun _ h => ⟨called_of_ne_nil h, trivial, trivial, trivial⟩
  -- One line for each command, in the order of the table.
  simp only [standardCommands, List.forall_mem_cons]
  refine ⟨fun _ _ => agree_pure _, fun _ _ => agree_pure _, fun _ _ => (agree_set hshort).mono hone,
    fun _ _ => hread .get rfl value_injective rfl trivial _,
    fun _ _ => hbool .del (fun _ => rfl) (fun _ => ⟨rfl, trivial, trivial, trivial⟩) rfl,
    fun _ _ => hbool .exists (fun _ => rfl) (fun _ => ⟨rfl, trivial, trivial, trivial⟩) rfl,
    fun _ _ => hread .typeOf rfl text_injective rfl trivial _,
    fun _ _ => (agree_expireGeneric hshort _ _).mono hone, fun _ _ => (agree_expireGeneric hshort _ _).mono hone,
    fun _ _ => hread .pttl rfl int_injective rfl trivial _, fun _ _ => hread .pttl rfl int_injective rfl trivial _,
    fun hname harity => hsets hname (by simp) harity, fun hname harity => hsets hname (by simp) harity,
    fun _ _ => hread (.hget _) rfl value_injective rfl trivial _,
    fun _ _ => (agree_hmgetLoop hshort _ _).mono (by rw [List.length_drop]; omega),
    fun _ _ => hread .hgetall rfl pairs_injective rfl trivial _, ?_,
    fun _ _ => hread .hlen rfl int_injective rfl trivial _,
    fun _ _ => hread (.hexists _) rfl bool_injective rfl trivial _, ?_, ?_,
    fun _ _ => hread (.sismember _) rfl bool_injective rfl trivial _,
    fun _ _ => hread .smembers rfl values_injective rfl trivial _,
    fun _ _ => hread .scard rfl int_injective rfl trivial _,
    fun _ harity => agree_zadd ft hshort (by simpa [arityMatches] using harity),
    fun _ _ => hread (.zscore _) rfl score_injective rfl trivial _,
    fun _ _ => (agree_zrange ft version hshort).mono hone, fun _ _ => (agree_zrangebyscore ft version hshort).mono hone,
    ?_, fun _ _ => hread .zcard rfl int_injective rfl trivial _, fun _ harity => hpush _ harity,
    fun _ harity => hpush _ harity, fun _ harity => agree_pop hshort (by simpa [arityMatches] using harity),
    fun _ harity => agree_pop hshort (by simpa [arityMatches] using harity),
    fun _ _ => (agree_lrange hshort).mono hone, fun _ _ => hread .llen rfl int_injective rfl trivial _, ?_,
    fun hname _ => absurd hname.symm hargs.named, ?_, fun _ hf => absurd hf List.not_mem_nil⟩
  · intro hname harity
    exact agree_listing hshort (by simpa [arityMatches] using harity) .hdel (p := hdel) (fun _ _ => rfl)
      (fun _ => Nat.zero_le _) fun _ h => ⟨called_of_ne_nil h, hargs.dels hname.symm, trivial, trivial⟩
  · intro _ harity
    exact agree_listing hshort (by simpa [arityMatches] using harity) .sadd (p := sadd) (fun _ _ => rfl)
      (fun _ => le_rfl) fun _ h => ⟨called_of_ne_nil h, trivial, trivial, trivial⟩
  · intro _ harity
    exact agree_listing hshort (by simpa [arityMatches] using harity) .srem (p := srem) (fun _ _ => rfl)
      (fun _ => Nat.zero_le _) fun _ h => ⟨called_of_ne_nil h, trivial, trivial, trivial⟩
  · intro _ harity
    exact agree_listing hshort (by simpa [arityMatches] using harity) .zrem (p := zrem) (fun _ _ => rfl)
      (fun _ => Nat.zero_le _) fun _ h => ⟨called_of_ne_nil h, trivial, trivial, trivial⟩
  · intro _ _
    apply agree_replyWith
    exact (agree_ask (show Op.dbsize.prog = Reply.int <$> dbsize from rfl) int_injective trivial (by simp)).mono hone
  · intro _ _
    apply agree_replyWith
    exact (agree_ask (show Op.compact.prog = (fun _ => Reply.unit) <$> compact from rfl) (fun _ _ _ => rfl) trivial
      (by simp)).mono hone

theorem agree_registryDispatch (hargs : Regular args) : Agree args.length (registryDispatch ft version args) := by
  cases args with
  | nil => exact agree_pure _
  | cons first rest =>
    unfold registryDispatch
    dsimp only
    split
    · exact agree_pure _
    · rename_i spec hfind
      split
      · rename_i harity
        have hname : spec.name = upperName first := by simpa using List.find?_some hfind
        exact agree_handler ft version hargs (List.cons_ne_nil _ _) spec (List.mem_of_find?_eq_some hfind) hname harity
      · exact agree_pure _

theorem agree_flush (hne : args ≠ []) : Agree args.length (flush args) := by
  unfold flush
  dsimp only
  split
  · exact agree_pure _
  · split
    · exact agree_pure _
    · have hask : Agree 1 (ask flushAll) :=
        agree_ask (show Op.flushAll.prog = (fun _ => Reply.unit) <$> flushAll from rfl) (fun _ _ _ => rfl) trivial
          (by simp)
      refine (Agree.bind (k := 0) hask fun r => ?_).mono (List.length_pos_of_ne_nil hne)
      cases r <;> exact agree_pure _

theorem agree_dispatch (hargs : Regular args) (hne : args ≠ []) :
    Agree args.length (dispatch ft args version connId) := by
  have hmap : ∀ {m : CommandM Frame}, Agree args.length m → Agree args.length (Action.ofReply <$> m) :=
    fun hm => Agree.bind (k := 0) hm fun _ => agree_pure _
  unfold dispatch
  dsimp only
  split_ifs
  · exact agree_pure _
  · exact agree_pure _
  · exact agree_pure _
  · exact agree_pure _
  · exact agree_pure _
  · exact hmap (agree_flush hne)
  · exact hmap (agree_registryDispatch ft version hargs)

end Requests

/-! ## Conversations -/

/-- Two servers get the same requests, from this connection and from others; whatever
compactions there are in between is up to each. The number bounds what the requests list. -/
inductive SameRequests (ft : FloatText) : ℕ → List Arrival → List Arrival → Prop
  | nil : SameRequests ft 0 [] []
  | request {n : ℕ} {l l' : List Arrival} (args : List Bytes) (hargs : Regular args) (h : SameRequests ft n l l') :
    SameRequests ft (n + args.length) (.request args :: l) (.request args :: l')
  | malformed (reason : String) (l l' : List Arrival) :
    SameRequests ft 0 (.malformed reason :: l) (.malformed reason :: l')
  | others {n : ℕ} {l l' : List Arrival} (args : List Bytes) (version : RespVersion) (connId : Int64)
    (hargs : Regular args) (hne : args ≠ []) (h : SameRequests ft n l l') :
    SameRequests ft (n + args.length) (.meanwhile (fun w => (dispatch ft args version connId w).2) :: l)
      (.meanwhile (fun w => (dispatch ft args version connId w).2) :: l')
  | compacted {n : ℕ} {l l' : List Arrival} (sel : Bytes → Bool) (h : SameRequests ft n l l') :
    SameRequests ft n (.meanwhile (World.compact sel) :: l) l'
  | compacted' {n : ℕ} {l l' : List Arrival} (sel : Bytes → Bool) (h : SameRequests ft n l l') :
    SameRequests ft n l (.meanwhile (World.compact sel) :: l')

/-- What the client sees of an exchange. -/
def Exchange.seen (e : Exchange) : Option (List Bytes) × Frame × RespVersion := (e.request, e.reply, e.version)

theorem Twins.compact {n : ℕ} {w w' : World} (h : Twins n w w') (sel : Bytes → Bool) : Twins n (w.compact sel) w' := by
  obtain ⟨p, p', c, ks, hp, hp', hroom⟩ := h.same
  exact ⟨h.ms, h.lasts, p, p', c, ks, hp.compact sel, hp', hroom⟩

theorem Twins.compact' {n : ℕ} {w w' : World} (h : Twins n w w') (sel : Bytes → Bool) : Twins n w (w'.compact sel) := by
  obtain ⟨p, p', c, ks, hp, hp', hroom⟩ := h.same
  exact ⟨h.ms, h.lasts, p, p', c, ks, hp, hp'.compact sel, hroom⟩

/-- Servers whose stores hold one keyspace send the same replies in a conversation, and
their stores hold one keyspace after it. All requests, those of other clients too, are
regular: none is `RAWCOUNT`, none lists a field of a hash twice, and the arguments are
shorter than `2^32`. Both stores have room for as many elements and versions as the
requests have arguments. -/
theorem conversations_agree (ft : FloatText) (connId : Int64) {n : ℕ} {l l' : List Arrival}
    (hl : SameRequests ft n l l') {w w' : World} (hw : Twins n w w') (version : RespVersion) :
    (handleConnection ft connId l' version w').1.map Exchange.seen =
        (handleConnection ft connId l version w).1.map Exchange.seen ∧
      Twins 0 (handleConnection ft connId l version w).2 (handleConnection ft connId l' version w').2 := by
  induction hl generalizing w w' version with
  | nil => exact ⟨rfl, hw⟩
  | malformed reason l l' => exact ⟨rfl, hw⟩
  | compacted sel h ih => exact ih (hw.compact sel) version
  | compacted' sel h ih => exact ih (hw.compact' sel) version
  | others args other id hargs hne h ih =>
    exact ih (agree_dispatch ft other id hargs hne _ _ _ hw).2 version
  | request args hargs h ih =>
    simp only [handleConnection]
    by_cases hne : args = []
    · rw [if_pos hne, if_pos hne]
      exact ih (hw.mono (Nat.le_add_right _ _)) version
    · rw [if_neg hne, if_neg hne]
      obtain ⟨hreply, hleft⟩ := agree_dispatch ft version connId hargs hne _ _ _ hw
      rw [hreply]
      split
      · exact ⟨rfl, hleft.mono (Nat.zero_le _)⟩
      · obtain ⟨hrest, hend⟩ := ih hleft ((dispatch ft args version connId _).1.wireVersion version)
        exact ⟨congrArg (_ :: ·) hrest, hend⟩

/-- A hash that has been deleted and built again; the records of its first life are still
on the disk. -/
def secondLife : List Deed :=
  [.ask (.keyed Key.k (.hset [([102], [49])])), .ask (.keyed Key.k .del), .ask (.keyed Key.k (.hset [([103], [50])]))]

def secondLifeWorld : World := (World.opened ∅ (stillClock 7 5)).afterDeeds secondLife

/-- The same store, compacted and started again. -/
def thirdLifeWorld : World := World.opened (secondLifeWorld.compact fun _ => true).disk (stillClock 7 9)

theorem twins_thirdLife : Twins 100 secondLifeWorld thirdLifeWorld := by
  have hrun : WellRun (World.opened ∅ (stillClock 7 5)) secondLife :=
    ⟨⟨rfl, by simp [Op.distinct], trivial, trivial⟩, by decide +kernel, ⟨rfl, trivial, trivial, trivial⟩,
      by decide +kernel, ⟨rfl, by simp [Op.distinct], trivial, trivial⟩, by decide +kernel, trivial⟩
  have hcount : ∀ (k : Bytes) e, (∅ : Keyspace)[k]? = some e → e.value.counter ≤ 0 := by
    intro k e he
    rw [Std.ExtTreeMap.getElem?_empty] at he
    cases he
  obtain ⟨-, hleft⟩ := (refines_opened (stillClock 7 5)).run hrun (staysSmall_of_listed hcount (by decide +kernel))
    (by decide +kernel)
  have hahead : (World.opened (secondLifeWorld.compact fun _ => true).disk (stillClock 7 9)).Ahead := by decide +kernel
  have hreopened := (hleft.compact fun _ => true).opened hahead
  have hms : thirdLifeWorld.ms = secondLifeWorld.ms := by
    rw [thirdLifeWorld, opened_eq]
    rfl
  refine ⟨hms, ⟨⟨by decide +kernel, ?_⟩, by decide +kernel, ?_⟩, _, _, 2, _, hleft, hreopened,
    by decide +kernel, by decide +kernel, by decide, ?_⟩
  · intro i
    have hget : secondLifeWorld.micros.get i = 5 := rfl
    rw [hget]
    decide
  · intro i
    have hget : thirdLifeWorld.micros.get i = 9 := by
      rw [thirdLifeWorld, opened_eq]
      rfl
    rw [hget]
    decide
  · intro k e he
    exact Keyspace.counter_step (Keyspace.counter_step (Keyspace.counter_step hcount _ _) _ _) _ _ k e he

/-- A client asks for the hash and for the number of keys, and leaves. -/
def visit : List Arrival := [.request [utf8 "HGETALL", [107]], .request [utf8 "DBSIZE"], .request [utf8 "QUIT"]]

/-- The first store is compacted in the middle. -/
theorem conversations_agree_secondLife :
    (handleConnection FloatText.quarter 1 visit .v2 thirdLifeWorld).1.map Exchange.seen =
      (handleConnection FloatText.quarter 1
        (visit.insertIdx 1 (.meanwhile (World.compact fun _ => true))) .v2 secondLifeWorld).1.map
          Exchange.seen := by
  have hall : Regular [utf8 "HGETALL", [107]] := by
    exact ⟨by decide +kernel, by decide +kernel, by decide +kernel, by decide +kernel⟩
  have hsize : Regular [utf8 "DBSIZE"] := by
    exact ⟨by decide +kernel, by decide +kernel, by decide +kernel, by decide +kernel⟩
  have hquit : Regular [utf8 "QUIT"] := by
    exact ⟨by decide +kernel, by decide +kernel, by decide +kernel, by decide +kernel⟩
  have hsame : SameRequests FloatText.quarter 4
      (visit.insertIdx 1 (.meanwhile (World.compact fun _ => true))) visit :=
    .request _ hall (.compacted _ (.request _ hsize (.request _ hquit .nil)))
  exact (conversations_agree _ 1 hsame (twins_thirdLife.mono (by decide)) .v2).1

end GameStore
