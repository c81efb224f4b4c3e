import GameStore.Server
import GameStore.Errors
import GameStore.Fragment

/-!
# One request, one reply on the wire

A reply is sent as its frame encodes. It is read back as that one frame when the texts
it sends as lines are lines, and these are fixed texts with one exception: a command or
subcommand that is not known is quoted in the error.
-/

namespace GameStore

open Lib

/-! ## Texts around a text -/

theorem oneLine_between {pre x post : String} (hpre : '\r' ∉ pre.toList) (hpost : '\n' ∉ post.toList) :
    OneLine (pre ++ x ++ post) ↔ OneLine x := by
  rw [oneLine_iff_chars, oneLine_iff_chars, String.toList_append, String.toList_append,
    pair_infix_append_right hpost, pair_infix_append_left hpre]

theorem oneLine_after {pre x : String} (hpre : '\r' ∉ pre.toList) : OneLine (pre ++ x) ↔ OneLine x := by
  rw [oneLine_iff_chars, oneLine_iff_chars, String.toList_append, pair_infix_append_left hpre]

/-- Command names survive lossy decoding and upper case line by line. -/
theorem oneLine_upperName (raw : Bytes) : OneLine (upperName raw) ↔ ¬ CRLF <:+: raw := by
  rw [upperName, oneLine_toAsciiUppercase, oneLine_fromUtf8Lossy]

/-! ## Frames that are sent as they are -/

/-- All texts in the frame that are sent as lines are lines. -/
abbrev Frame.Clean (f : Frame) : Prop := f.Everywhere Frame.Lined

/-- The kinds of frame RESP2 has. -/
def Frame.Resp2 : Frame → Prop
  | .simple _ | .error _ | .integer _ | .bulk _ | .array _ | .null => True
  | _ => False

/-- At every depth a text that is sent as a line is a line, and in a reply for RESP2 the
kind is one RESP2 has. -/
abbrev Frame.Built (version : RespVersion) (f : Frame) : Prop :=
  f.Everywhere fun g => g.Lined ∧ (version = .v2 → g.Resp2)

theorem Frame.Everywhere.imp {P Q : Frame → Prop} (hPQ : ∀ g, P g → Q g) {f : Frame} (h : f.Everywhere P) :
    f.Everywhere Q := by
  induction h with
  | intro here below ih => exact ⟨hPQ _ here, ih⟩

theorem Frame.Built.clean {version : RespVersion} {f : Frame} (h : f.Built version) : f.Clean :=
  h.imp fun _ hg => hg.1

theorem Frame.Built.resp2 {f : Frame} (h : f.Built .v2) : f.Everywhere Frame.Resp2 :=
  h.imp fun _ hg => hg.2 rfl

section Built

variable {version : RespVersion}

theorem built_error {s : String} (h : OneLine s) : (Frame.error s).Built version :=
  .leaf ⟨h, fun _ => trivial⟩ rfl

theorem built_simple {s : String} (h : OneLine s) : (Frame.simple s).Built version :=
  .leaf ⟨h, fun _ => trivial⟩ rfl

theorem built_fixed {s : String} (h : '\n' ∉ s.toList) : (Frame.error s).Built version :=
  built_error (oneLine_of_not_mem h)

theorem built_OK : Frame.OK.Built version := built_simple (oneLine_of_not_mem (by decide))

theorem built_bulk (b : Bytes) : (Frame.bulk b).Built version := .leaf ⟨trivial, fun _ => trivial⟩ rfl

theorem built_integer (n : Int64) : (Frame.integer n).Built version := .leaf ⟨trivial, fun _ => trivial⟩ rfl

theorem built_null : Frame.null.Built version := .leaf ⟨trivial, fun _ => trivial⟩ rfl

theorem built_array {items : List Frame} (h : ∀ f ∈ items, f.Built version) :
    (Frame.array items).Built version :=
  ⟨⟨trivial, fun _ => trivial⟩, h⟩

theorem built_double (d : F64) : (Frame.double d).Built .v3 := .leaf ⟨trivial, fun h => by cases h⟩ rfl

theorem built_set {items : List Frame} (h : ∀ f ∈ items, f.Built .v3) : (Frame.set items).Built .v3 :=
  ⟨⟨trivial, fun h => by cases h⟩, h⟩

theorem built_map {pairs : List (Frame × Frame)} (h : ∀ p ∈ pairs, p.1.Built .v3 ∧ p.2.Built .v3) :
    (Frame.map pairs).Built .v3 := by
  refine ⟨⟨trivial, fun h => by cases h⟩, fun f hf => ?_⟩
  obtain ⟨p, hp, hf⟩ := List.mem_flatMap.mp hf
  obtain rfl | hf := List.mem_cons.mp hf
  · exact (h p hp).1
  · rw [List.mem_singleton.mp hf]
    exact (h p hp).2

theorem built_bulks (l : List Bytes) : ∀ f ∈ l.map Frame.bulk, f.Built version := by
  intro f hf
  obtain ⟨b, -, rfl⟩ := List.mem_map.mp hf
  exact built_bulk b

theorem built_bulkOrNull (v : Option Bytes) : (bulkOrNull v).Built version := by
  cases v with
  | none => exact built_null
  | some v => exact built_bulk v

theorem built_wrongArgs {name : String} (h : OneLine name) : (wrongArgs name).Built version :=
  built_error ((oneLine_between (by decide) (by decide)).mpr h)

theorem built_engineError {e : EngineError} (h : OneLine e.toText) : (engineError e).Built version := by
  cases e with
  | wrongType => exact built_error h
  | backend msg => exact built_error ((oneLine_after (by decide)).mpr h)
  | corruption msg => exact built_error ((oneLine_after (by decide)).mpr h)

end Built

/-! ## What handlers give -/

/-- The result is in `P`, whatever the store is. -/
def Gives {α : Type} (P : α → Prop) (m : CommandM α) : Prop := ∀ w, P (m w).1

section Gives

variable {α β : Type} {P : β → Prop} {version : RespVersion}

theorem Gives.pure {a : β} (h : P a) : Gives P (pure a : CommandM β) := fun _ => h

theorem Gives.bind {Q : α → Prop} {m : CommandM α} {f : α → CommandM β} (hm : Gives Q m)
    (hf : ∀ a, Q a → Gives P (f a)) : Gives P (m >>= f) := fun w => hf _ (hm w) _

theorem Gives.ask {Q : Except EngineError α → Prop} {p : StoreM α} (hp : Prog.Ends Q p) : Gives Q (ask p) :=
  fun w => hp.run w

/-- A reply made of what the store returns. -/
theorem gives_replyWith {p : StoreM α} (hp : Speaks p) {reply : α → Frame} (h : ∀ a, (reply a).Built version) :
    Gives (Frame.Built version) (replyWith p reply) := by
  refine (Gives.ask hp).bind fun r hr => ?_
  cases r with
  | ok a => exact .pure (h a)
  | error e => exact .pure (built_engineError hr)

theorem gives_integer {p : StoreM ℤ} (hp : Speaks p) : Gives (Frame.Built version) (replyWith p integer) :=
  gives_replyWith hp fun _ => built_integer _

theorem gives_bool {p : StoreM Bool} (hp : Speaks p) :
    Gives (Frame.Built version) (replyWith p fun b => integer (if b then 1 else 0)) :=
  gives_replyWith hp fun _ => built_integer _

end Gives

/-! ## The commands -/

section Commands

variable (ft : FloatText) {version : RespVersion} (args : List Bytes)

theorem gives_ping : Gives (Frame.Built version) (ping args) := by
  apply Gives.pure
  split_ifs
  · exact built_simple (oneLine_of_not_mem (by decide))
  · exact built_bulk _
  · exact built_wrongArgs (oneLine_of_not_mem (by decide))

theorem built_syntaxError : SYNTAX_ERROR.Built version := built_fixed (by decide)

theorem built_notAnInteger : (Frame.error NOT_AN_INTEGER).Built version := built_fixed (by decide)

theorem built_invalidExpire {cmd : String} (h : OneLine cmd) : (invalidExpire cmd).Built version :=
  built_error ((oneLine_between (by decide) (by decide)).mpr h)

/-- A step of the option loops: it goes on or gives the reply. -/
def Refuses {α : Type} (version : RespVersion) : Except Frame α → Prop
  | .ok _ => True
  | .error f => f.Built version

theorem speaks_nowMs : Speaks nowMs := fun _ => trivial

theorem gives_setOptions (opts : List Bytes) (expireMs : UInt64) :
    Gives (Refuses version) (setOptions opts expireMs) := by
  have hset : OneLine "set" := oneLine_of_not_mem (by decide)
  fun_induction setOptions opts expireMs with
  | case1 => exact .pure trivial
  | case2 => exact .pure built_syntaxError
  | case3 => exact .pure built_syntaxError
  | case4 => exact .pure built_syntaxError
  | case5 => exact .pure built_notAnInteger
  | case6 => exact .pure (built_invalidExpire hset)
  | case7 => exact .pure (built_invalidExpire hset)
  | case8 =>
    rename_i ih
    refine (Gives.ask speaks_nowMs).bind fun r hr => ?_
    cases r with
    | error e => exact .pure (built_engineError hr)
    | ok now =>
      dsimp only
      split
      · exact .pure (built_invalidExpire hset)
      · exact ih _

theorem gives_set : Gives (Frame.Built version) (setCommand args) := by
  have hoptions : Gives (Refuses version) (setOptions (args.drop 3) 0) := gives_setOptions _ 0
  refine hoptions.bind fun r hr => ?_
  cases r with
  | error f => exact .pure hr
  | ok expireMs => exact gives_replyWith (speaks_set _ _ _) fun _ => built_OK

theorem gives_countKeys {p : Bytes → StoreM Bool} (hp : ∀ k, Speaks (p k)) (keys : List Bytes) (n : ℤ) :
    Gives (Frame.Built version) (countKeys p keys n) := by
  induction keys generalizing n with
  | nil => exact .pure (built_integer _)
  | cons key keys ih =>
    refine (Gives.ask (hp key)).bind fun r hr => ?_
    rcases r with e | _ | _
    · exact .pure (built_engineError hr)
    · exact ih n
    · exact ih (n + 1)

theorem gives_type : Gives (Frame.Built version) (typeCommand args) := by
  refine (Gives.ask (ends_typeOf _)).bind fun r hr => ?_
  cases r with
  | ok s => exact .pure (built_simple hr)
  | error e => exact .pure (built_engineError hr)

theorem gives_expireGeneric (unitMs : Int64) {cmd : String} (h : OneLine cmd) :
    Gives (Frame.Built version) (expireGeneric unitMs cmd args) := by
  unfold expireGeneric
  split
  · exact .pure built_notAnInteger
  · split
    · exact .pure (built_invalidExpire h)
    · refine (Gives.ask speaks_nowMs).bind fun r hr => ?_
      cases r with
      | error e => exact .pure (built_engineError hr)
      | ok now => exact gives_bool (speaks_expireAt _ _)

theorem gives_ttl : Gives (Frame.Built version) (ttlCommand args) := by
  refine gives_replyWith (speaks_pttl _) fun n => ?_
  dsimp only
  split <;> exact built_integer _

theorem gives_hset : Gives (Frame.Built version) (hsetCommand args) := by
  unfold hsetCommand
  dsimp only
  split
  · exact .pure (built_wrongArgs (by split <;> exact oneLine_of_not_mem (by decide)))
  · refine gives_replyWith (speaks_hset _ _) fun n => ?_
    split
    · exact built_OK
    · exact built_integer _

theorem gives_hmgetLoop (key : Bytes) (fields : List Bytes) {items : List Frame} (h : ∀ f ∈ items, f.Built version) :
    Gives (Frame.Built version) (hmgetLoop key fields items) := by
  induction fields generalizing items with
  | nil => exact .pure (built_array h)
  | cons field fields ih =>
    refine (Gives.ask (speaks_hget key field)).bind fun r hr => ?_
    cases r with
    | error e => exact .pure (built_engineError hr)
    | ok v =>
      refine ih fun f hf => ?_
      obtain hf | hf := List.mem_append.mp hf
      · exact h f hf
      · rw [List.mem_singleton.mp hf]
        exact built_bulkOrNull v

/-- Fields and values one after the other. -/
theorem built_flat {α : Type} {l : List α} {g h : α → Frame} (hl : ∀ a ∈ l, (g a).Built version ∧ (h a).Built version) :
    (Frame.array (l.flatMap fun a => [g a, h a])).Built version := by
  refine built_array fun f hf => ?_
  obtain ⟨a, ha, hf⟩ := List.mem_flatMap.mp hf
  obtain rfl | hf := List.mem_cons.mp hf
  · exact (hl a ha).1
  · rw [List.mem_singleton.mp hf]
    exact (hl a ha).2

theorem gives_hgetall : Gives (Frame.Built version) (hgetallCommand version args) := by
  refine gives_replyWith (speaks_hgetall _) fun pairs => ?_
  cases version with
  | v2 => exact built_flat fun p _ => ⟨built_bulk p.1, built_bulk p.2⟩
  | v3 =>
    refine built_map fun p hp => ?_
    obtain ⟨q, -, rfl⟩ := List.mem_map.mp hp
    exact ⟨built_bulk q.1, built_bulk q.2⟩

theorem gives_smembers : Gives (Frame.Built version) (smembersCommand version args) := by
  refine gives_replyWith (speaks_smembers _) fun members => ?_
  cases version with
  | v2 => exact built_array (built_bulks members)
  | v3 => exact built_set (built_bulks members)

theorem built_rangeReply (withscores : Bool) (pairs : List (Bytes × F64)) :
    (rangeReply ft version withscores pairs).Built version := by
  unfold rangeReply
  split
  · refine built_array fun f hf => ?_
    obtain ⟨p, -, rfl⟩ := List.mem_map.mp hf
    exact built_bulk p.1
  · cases version with
    | v2 => exact built_flat fun p _ => ⟨built_bulk p.1, built_bulk _⟩
    | v3 =>
      refine built_array fun f hf => ?_
      obtain ⟨p, -, rfl⟩ := List.mem_map.mp hf
      refine built_array fun f hf => ?_
      obtain rfl | hf := List.mem_cons.mp hf
      · exact built_bulk p.1
      · rw [List.mem_singleton.mp hf]
        exact built_double p.2

theorem gives_zadd : Gives (Frame.Built version) (zaddCommand ft args) := by
  unfold zaddCommand
  dsimp only
  split
  · exact .pure built_syntaxError
  · split
    · exact .pure built_syntaxError
    · split
      · exact .pure (built_fixed (by decide))
      · exact gives_integer (speaks_zadd _ _)

theorem gives_zscore : Gives (Frame.Built version) (zscoreCommand ft version args) := by
  refine gives_replyWith (speaks_zscore _ _) fun score => ?_
  cases score with
  | none => exact built_null
  | some score => cases version with
    | v2 => exact built_bulk _
    | v3 => exact built_double score

theorem gives_zrange : Gives (Frame.Built version) (zrangeCommand ft version args) := by
  unfold zrangeCommand
  split
  · dsimp only
    split
    · exact .pure built_syntaxError
    · split
      · exact .pure built_syntaxError
      · exact gives_replyWith (speaks_zrange _ _ _) fun pairs => built_rangeReply ft _ pairs
  · exact .pure built_notAnInteger

theorem gives_zrangebyscore : Gives (Frame.Built version) (zrangebyscoreCommand ft version args) := by
  unfold zrangebyscoreCommand
  split
  · split
    · exact .pure built_syntaxError
    · exact gives_replyWith (speaks_zrangeByScore _ _ _ _ _) fun pairs => built_rangeReply ft _ _
  · exact .pure (built_fixed (by decide))

theorem refuses_popCount (raw : Option Bytes) : Refuses version (popCount raw) := by
  unfold popCount
  split
  · trivial
  · split
    · split
      · trivial
      · exact built_fixed (by decide)
    · exact built_notAnInteger

theorem gives_pop : Gives (Frame.Built version) (popCommand args) := by
  have hcount : Refuses version (popCount args[2]?) := refuses_popCount _
  unfold popCommand
  dsimp only
  split
  · rename_i reply heq
    rw [heq] at hcount
    exact .pure hcount
  · split
    · exact .pure (built_wrongArgs (by split <;> exact oneLine_of_not_mem (by decide)))
    · refine (Gives.ask (speaks_llen _)).bind fun r hr => ?_
      cases r with
      | error e => exact .pure (built_engineError hr)
      | ok n =>
        dsimp only
        split
        · exact .pure built_null
        · refine gives_replyWith (speaks_pop _ _ _) fun popped => ?_
          split
          · exact built_bulkOrNull _
          · exact built_array (built_bulks popped)

theorem gives_lrange : Gives (Frame.Built version) (lrangeCommand args) := by
  unfold lrangeCommand
  split
  · exact gives_replyWith (speaks_lrange _ _ _) fun values => built_array (built_bulks values)
  · exact .pure built_notAnInteger

theorem speaks_flushAll : Speaks flushAll := fun _ _ _ _ _ => trivial

theorem speaks_compact : Speaks compact := fun _ => trivial

/-- Every registered command replies with a clean frame. -/
theorem gives_handler : ∀ spec ∈ standardCommands ft, Gives (Frame.Built version) (spec.handler version args) := by
  have hbulk : ∀ v, (bulkOrNull v).Built version := built_bulkOrNull
  simp only [standardCommands, List.forall_mem_cons]
  exact ⟨gives_ping args, .pure (built_bulk _),
    gives_set args, gives_replyWith (speaks_get _) hbulk, gives_countKeys speaks_del _ 0,
    gives_countKeys speaks_exists _ 0, gives_type args,
    gives_expireGeneric args 1000 (oneLine_of_not_mem (by decide)),
    gives_expireGeneric args 1 (oneLine_of_not_mem (by decide)), gives_ttl args,
    gives_integer (speaks_pttl _),
    gives_hset args, gives_hset args, gives_replyWith (speaks_hget _ _) hbulk,
    gives_hmgetLoop _ _ (fun _ hf => absurd hf List.not_mem_nil), gives_hgetall args,
    gives_integer (speaks_hdel _ _), gives_integer (speaks_storedCount _ _), gives_bool (speaks_hexists _ _),
    gives_integer (speaks_sadd _ _), gives_integer (speaks_srem _ _), gives_bool (speaks_sismember _ _),
    gives_smembers args, gives_integer (speaks_storedCount _ _),
    gives_zadd ft args, gives_zscore ft args, gives_zrange ft args,
    gives_zrangebyscore ft args, gives_integer (speaks_zrem _ _),
    gives_integer (speaks_storedCount _ _),
    gives_integer (speaks_push _ _ _), gives_integer (speaks_push _ _ _), gives_pop args, gives_pop args,
    gives_lrange args, gives_integer (speaks_llen _),
    gives_integer fun _ => trivial, gives_integer fun _ _ => trivial,
    gives_replyWith speaks_compact fun _ => built_OK, fun _ hf => absurd hf List.not_mem_nil⟩

/-- The names do not depend on how floats are written, and a list of names can be read. -/
theorem oneLine_names : ∀ spec ∈ standardCommands ft, OneLine spec.name ∧ OneLine spec.nameLower := by
  have hnames : ((standardCommands ⟨fun _ => "", fun _ => none⟩).map CommandSpec.name).all (fun name =>
      !name.toList.contains '\n' && !(toAsciiLowercase name).toList.contains '\n') = true := by decide
  have hsame : (standardCommands ft).map CommandSpec.name =
      (standardCommands ⟨fun _ => "", fun _ => none⟩).map CommandSpec.name := rfl
  intro spec hspec
  have h := List.all_eq_true.mp hnames spec.name (hsame ▸ List.mem_map_of_mem hspec)
  simp only [Bool.and_eq_true, Bool.not_eq_true', List.contains_eq_mem, decide_eq_false_iff_not] at h
  exact ⟨oneLine_of_not_mem h.1, oneLine_of_not_mem h.2⟩

end Commands

/-! ## Dispatch -/

section Dispatch

variable (ft : FloatText) {args : List Bytes} (version : RespVersion) (connId : Int64)

theorem gives_flush (args : List Bytes) : Gives (Frame.Built version) (flush args) := by
  unfold flush
  dsimp only
  split
  · exact .pure built_syntaxError
  · split
    · exact .pure (built_wrongArgs (by split <;> exact oneLine_of_not_mem (by decide)))
    · refine (Gives.ask speaks_flushAll).bind fun r hr => ?_
      cases r with
      | ok _ => exact .pure built_OK
      | error e => exact .pure (built_error ((oneLine_after (by decide)).mpr hr))

theorem built_select (args : List Bytes) : (select args).Built version := by
  unfold select
  split
  · exact built_fixed (by decide)
  · split
    · split
      · exact built_OK
      · exact built_fixed (by decide)
    · exact built_fixed (by decide)

theorem built_helloReply : (helloReply version connId).Built version := by
  have hbulks : ∀ a b : Bytes, (Frame.bulk a).Built version ∧ (Frame.bulk b).Built version := fun a b =>
    ⟨built_bulk a, built_bulk b⟩
  have hnone : (Frame.array []).Built version := built_array fun _ hf => absurd hf List.not_mem_nil
  have hfields : ∀ p ∈ helloFields version connId, p.1.Built version ∧ p.2.Built version := by
    simp only [helloFields, List.forall_mem_cons]
    exact ⟨hbulks _ _, hbulks _ _, ⟨built_bulk _, built_integer _⟩, ⟨built_bulk _, built_integer _⟩,
      hbulks _ _, hbulks _ _, ⟨built_bulk _, hnone⟩, fun _ hf => absurd hf List.not_mem_nil⟩
  cases version with
  | v2 => exact built_flat hfields
  | v3 => exact built_map hfields

/-- The reply to `HELLO` is built for the version the codec is switched to. -/
theorem built_hello (args : List Bytes) :
    (hello args version connId).reply.Built ((hello args version connId).wireVersion version) := by
  unfold hello
  split
  · exact built_helloReply version connId
  · split
    · exact built_helloReply _ connId
    · exact built_fixed (by decide)

/-- The command name, and the subcommand of `CLIENT`, hold no CRLF. -/
def NamesOnOneLine (args : List Bytes) : Prop :=
  ¬ CRLF <:+: arg args 0 ∧
    (upperName (arg args 0) = "CLIENT" → ∀ sub, args[1]? = some sub → ¬ CRLF <:+: sub)

theorem built_client (h : ∀ sub, args[1]? = some sub → ¬ CRLF <:+: sub) : (client args connId).Built version := by
  unfold client
  split
  · exact built_fixed (by decide)
  · rename_i sub hsub
    dsimp only
    split
    · exact built_OK
    · split
      · exact built_integer connId
      · split
        · exact built_bulk []
        · exact built_error ((oneLine_between (by decide) (by decide)).mpr
            ((oneLine_upperName sub).mpr (h sub hsub)))

theorem gives_registryDispatch (h : ¬ CRLF <:+: arg args 0) :
    Gives (Frame.Built version) (registryDispatch ft version args) := by
  cases args with
  | nil => exact .pure (built_fixed (by decide))
  | cons first rest =>
    unfold registryDispatch
    dsimp only
    split
    · exact .pure (built_error ((oneLine_between (by decide) (by decide)).mpr
        ((oneLine_fromUtf8Lossy first).mpr h)))
    · rename_i spec hfind
      have hspec := List.mem_of_find?_eq_some hfind
      split
      · exact gives_handler ft _ spec hspec
      · exact .pure (built_wrongArgs (oneLine_names ft spec hspec).2)

/-- Whatever is asked, the reply is built for the version it is encoded for. -/
theorem gives_dispatch (h : NamesOnOneLine args) :
    Gives (fun action : Action => action.reply.Built (action.wireVersion version))
      (dispatch ft args version connId) := by
  have hmap : ∀ m : CommandM Frame, Gives (Frame.Built version) m →
      Gives (fun action : Action => action.reply.Built (action.wireVersion version))
        (Action.ofReply <$> m) := fun m hm w => hm w
  unfold dispatch
  dsimp only
  split_ifs with hhello hquit hclient
  · exact .pure (built_hello version connId args)
  · exact .pure built_OK
  · exact .pure (built_client version connId (h.2 hclient))
  · exact .pure (built_select version args)
  · exact .pure (built_array fun _ hf => absurd hf List.not_mem_nil)
  · exact hmap _ (gives_flush version args)
  · exact hmap _ (gives_registryDispatch ft version h.1)

/-- A line that is broken: something is left after the first frame. -/
theorem decode_broken_line {s : String} (h : ¬ OneLine s) (limits : Limits) (f : Frame) :
    decode ft limits (encode ft version (.error s)) ≠ (.ok (some f), []) := by
  obtain ⟨i, hi⟩ := Option.ne_none_iff_exists'.mp fun hnone => h (findPair_eq_none_iff.mp hnone)
  have hlt := findPair_lt hi
  have hread : readLine (45 :: (utf8 s ++ CRLF)) 1 =
      .ok (some (slice (45 :: (utf8 s ++ CRLF)) 1 (1 + i), 1 + i + 2)) := by
    rw [readLine, if_neg (by simp), List.drop_succ_cons, List.drop_zero, findPair_append hi, Option.map_some]
  have hparse : parseFrame ft limits (limits.maxDepth + 1) (45 :: (utf8 s ++ CRLF)) 0 =
      (strFrom (slice (45 :: (utf8 s ++ CRLF)) 1 (1 + i))).map fun s => some (.error s, 1 + i + 2) := by
    change fromLine _ (45 :: (utf8 s ++ CRLF)) 1 = _
    rw [fromLine, hread, Parsed.bind_some]
    cases strFrom (slice (45 :: (utf8 s ++ CRLF)) 1 (1 + i)) <;> rfl
  simp only [encode, decode]
  cases hs : strFrom (slice (45 :: (utf8 s ++ CRLF)) 1 (1 + i)) with
  | error e =>
    rw [hs] at hparse
    rw [advance_error hparse]
    intro heq
    cases (Prod.mk.inj heq).1
  | ok text =>
    rw [hs] at hparse
    rw [advance_some hparse]
    intro heq
    have hleft : (45 :: (utf8 s ++ CRLF)).length ≤ 1 + i + 2 := List.drop_eq_nil_iff.mp (Prod.mk.inj heq).2
    simp only [List.length_cons, List.length_append, CRLF, List.length_nil] at hleft
    omega

/-- A name with a CRLF in it is no known name, and is quoted. -/
theorem registryDispatch_quotes (h : CRLF <:+: arg args 0) (w : World) :
    ∃ s, (registryDispatch ft version args w).1 = .error s ∧ ¬ OneLine s := by
  cases args with
  | nil => exact absurd h (by decide)
  | cons first rest =>
    have hunknown : (standardCommands ft).find? (fun spec => spec.name = upperName first) = none := by
      refine List.find?_eq_none.mpr fun spec hspec hname => ?_
      have hline := (oneLine_names ft spec hspec).1
      rw [of_decide_eq_true hname, oneLine_upperName] at hline
      exact hline h
    refine ⟨s!"ERR unknown command '{fromUtf8Lossy first}'", ?_, fun hline => ?_⟩
    · unfold registryDispatch
      dsimp only
      rw [hunknown]
      rfl
    · have hfirst : OneLine (fromUtf8Lossy first) := (oneLine_between (by decide) (by decide)).mp hline
      exact (oneLine_fromUtf8Lossy first).mp hfirst h

theorem client_quotes {sub : Bytes} (hsub : args[1]? = some sub) (h : CRLF <:+: sub) :
    ∃ s, client args connId = .error s ∧ ¬ OneLine s := by
  have hbroken : ¬ OneLine (upperName sub) := fun hline => (oneLine_upperName sub).mp hline h
  have hother : ∀ s : String, '\n' ∉ s.toList → upperName sub ≠ s := fun s hs he =>
    hbroken (he ▸ oneLine_of_not_mem hs)
  have hsetters : upperName sub ∉ ["SETINFO", "SETNAME", "NO-EVICT", "NO-TOUCH"] := by
    simp only [List.mem_cons, List.not_mem_nil, or_false, not_or]
    exact ⟨hother _ (by decide), hother _ (by decide), hother _ (by decide), hother _ (by decide)⟩
  refine ⟨s!"ERR Unknown subcommand or wrong number of arguments for '{upperName sub}'. Try CLIENT HELP.",
    ?_, fun hline => hbroken ((oneLine_between (by decide) (by decide)).mp hline)⟩
  unfold client
  rw [hsub]
  dsimp only
  rw [if_neg hsetters, if_neg (hother "ID" (by decide)), if_neg (hother "GETNAME" (by decide))]

/-- A request that breaks the condition is answered with a broken line. -/
theorem dispatch_quotes (h : ¬ NamesOnOneLine args) (w : World) :
    ∃ s, (dispatch ft args version connId w).1.reply = .error s ∧ ¬ OneLine s := by
  unfold dispatch
  by_cases hfirst : CRLF <:+: arg args 0
  · have hother : ∀ s : String, '\n' ∉ s.toList → upperName (arg args 0) ≠ s := fun s hs he =>
      (oneLine_upperName (arg args 0)).mp (he ▸ oneLine_of_not_mem hs) hfirst
    rw [if_neg (hother _ (by decide)), if_neg (hother _ (by decide)), if_neg (hother _ (by decide)),
      if_neg (hother _ (by decide)), if_neg (hother _ (by decide)),
      if_neg (not_or.mpr ⟨hother _ (by decide), hother _ (by decide)⟩)]
    exact registryDispatch_quotes ft version hfirst w
  · have hclient : upperName (arg args 0) = "CLIENT" := by
      by_contra hne
      exact h ⟨hfirst, fun he => absurd he hne⟩
    obtain ⟨sub, hsub, hcrlf⟩ : ∃ sub, args[1]? = some sub ∧ CRLF <:+: sub := by
      by_contra hnone
      exact h ⟨hfirst, fun _ sub hsub hcrlf => hnone ⟨sub, hsub, hcrlf⟩⟩
    rw [if_neg (by rw [hclient]; decide), if_neg (by rw [hclient]; decide), if_pos hclient]
    exact client_quotes connId hsub hcrlf

/-- One request, one reply on the wire: what is sent for a request is decoded, within any
limits the reply fits, to that one frame (any NaN in it is the one NaN of the wire) with
nothing left, exactly when the command name, and the subcommand of `CLIENT`, hold no CRLF. -/
theorem one_reply_iff (hft : ft.Lawful) (args : List Bytes) (w : World) :
    let action := (dispatch ft args version connId w).1
    (∀ limits : Limits, action.reply.Everywhere (Frame.Sized limits) →
      action.reply.Nested limits.maxDepth →
      decode ft limits (action.wire ft version) = (.ok (some action.reply.canon), [])) ↔
      NamesOnOneLine args := by
  intro action
  constructor
  · intro hall
    by_contra hnames
    obtain ⟨s, hreply, hbroken⟩ := dispatch_quotes ft version connId hnames w
    have hone := hall Limits.default (by rw [hreply]; exact .leaf trivial rfl)
      (by rw [hreply]; exact .leaf rfl)
    rw [Action.wire, hreply] at hone
    exact decode_broken_line ft _ hbroken _ _ hone
  · intro hnames limits hsizes hdepth
    have hclean : action.reply.Clean := (gives_dispatch ft version connId hnames w).clean
    have hread := hdepth.reads_encode (action.wireVersion version) hft hclean hsizes [] []
    rw [List.nil_append, List.append_nil, List.length_nil, Nat.zero_add] at hread
    rw [decode, Action.wire, advance_some hread, List.drop_length]

/-- A store with nothing in it. -/
def emptyWorld : World := ⟨⟨∅, ∅, true, 0⟩, ⟨Stream'.const 0, Stream'.const 0⟩⟩

/-- A payload of CR and LF is echoed as one frame. -/
theorem one_reply_echo :
    decode FloatText.quarter Limits.default
        ((dispatch FloatText.quarter [utf8 "ECHO", CRLF] .v2 1 emptyWorld).1.wire FloatText.quarter .v2) =
      (.ok (some (.bulk CRLF)), []) := by
  have hreply : (dispatch FloatText.quarter [utf8 "ECHO", CRLF] .v2 1 emptyWorld).1.reply = .bulk CRLF := rfl
  have hnames : NamesOnOneLine [utf8 "ECHO", CRLF] :=
    ⟨by decide, fun h => absurd h (by decide)⟩
  have hone := (one_reply_iff FloatText.quarter .v2 1 FloatText.quarter_lawful [utf8 "ECHO", CRLF]
    emptyWorld).mpr hnames Limits.default
  rw [hreply] at hone
  exact hone (.leaf ⟨by decide, by decide⟩ rfl) (.leaf rfl)

/-- `X\r\n+OK` as the command name: the reply is read as an error and, after it, a second
frame. -/
theorem two_replies_for_unknown_name :
    ¬ ∀ (args : List Bytes) (w : World), args ≠ [] →
      ∃ limits : Limits,
        decode FloatText.quarter limits
            ((dispatch FloatText.quarter args .v2 1 w).1.wire FloatText.quarter .v2) =
          (.ok (some (dispatch FloatText.quarter args .v2 1 w).1.reply.canon), []) := by
  intro h
  obtain ⟨limits, hone⟩ := h [utf8 "X\r\n+OK"] emptyWorld (List.cons_ne_nil _ _)
  have hnames : ¬ NamesOnOneLine [utf8 "X\r\n+OK"] := fun hn => hn.1 (by decide)
  obtain ⟨s, hreply, hbroken⟩ := dispatch_quotes FloatText.quarter .v2 1 hnames emptyWorld
  rw [Action.wire, hreply] at hone
  exact decode_broken_line FloatText.quarter _ hbroken limits _ hone

end Dispatch

end GameStore
