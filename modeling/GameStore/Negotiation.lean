import GameStore.OneReply
import GameStore.ScoreText

/-!
# A connection and its protocol version

The codec starts at RESP2 and `HELLO` switches it, between the making of a reply and its
encoding. The five commands whose replies depend on the version send the same texts for
both, in the same order, nested in another way, and for each double of RESP3 a text that
reads as this number.
-/

namespace GameStore

open Lib

/-! ## The loop of a connection (`handle_connection`) -/

/-- What a connection meets, one after the other. -/
inductive Arrival
  | request (args : List Bytes)
  /-- The stream is no sequence of requests from here on, for the reason given. -/
  | malformed (reason : String)
  /-- Other connections change the store. -/
  | meanwhile (others : World → World)

/-- A reply as it is sent: the request it is for and the store this one met, and the
version of the codec that encodes it. -/
structure Exchange where
  request : Option (List Bytes)
  before : World
  reply : Frame
  version : RespVersion

section Connection

variable (ft : FloatText) (connId : Int64)

def handleConnection : List Arrival → RespVersion → CommandM (List Exchange)
  | [], _ => pure []
  | .malformed reason :: _, version => fun w =>
    ([⟨none, w, .error s!"ERR Protocol error: {reason}", version⟩], w)
  | .meanwhile others :: rest, version => fun w => handleConnection rest version (others w)
  | .request args :: rest, version => fun w =>
    if args = [] then handleConnection rest version w
    else
      let action := (dispatch ft args version connId w).1
      let after := (dispatch ft args version connId w).2
      -- The encoder is switched before it is used.
      let exchange : Exchange := ⟨some args, w, action.reply, action.wireVersion version⟩
      if action.close then ([exchange], after)
      else
        let exchanges := handleConnection rest (action.wireVersion version) after
        (exchange :: exchanges.1, exchanges.2)

/-- The version the reply is encoded for is the one it is made for: the dispatch gives
this reply when told that version, and the reply to a `HELLO` that is not refused
describes that version. -/
def Exchange.Shaped (e : Exchange) : Prop :=
  match e.request with
  | none => ∃ text, e.reply = .error text
  | some args => e.reply = (dispatch ft args e.version connId e.before).1.reply ∧
    (upperName (arg args 0) = "HELLO" →
      e.reply = helloReply e.version connId ∨ ∃ text, e.reply = .error text)

end Connection

/-! ## What a reply carries -/

section Content

mutual

/-- The texts and numbers of a frame in their order, however they are nested. -/
def content : Frame → List Frame
  | .array items => contentItems items
  | .set items => contentItems items
  | .push items => contentItems items
  | .map pairs => contentPairs pairs
  | f => [f]

def contentItems : List Frame → List Frame
  | [] => []
  | item :: items => content item ++ contentItems items

def contentPairs : List (Frame × Frame) → List Frame
  | [] => []
  | (k, v) :: pairs => content k ++ content v ++ contentPairs pairs

end

theorem contentItems_eq (items : List Frame) : contentItems items = items.flatMap content := by
  induction items with
  | nil => rfl
  | cons item items ih => rw [contentItems, ih, List.flatMap_cons]

theorem contentPairs_eq (pairs : List (Frame × Frame)) :
    contentPairs pairs = pairs.flatMap fun p => content p.1 ++ content p.2 := by
  induction pairs with
  | nil => rfl
  | cons p pairs ih => rw [contentPairs, ih, List.flatMap_cons]

theorem content_array (items : List Frame) : content (.array items) = items.flatMap content :=
  contentItems_eq items

/-- Two frames for each element, in one array. -/
theorem content_flat {α : Type} (l : List α) (g h : α → Frame) :
    content (.array (l.flatMap fun a => [g a, h a])) = l.flatMap fun a => content (g a) ++ content (h a) := by
  rw [content_array, List.flatMap_assoc]
  simp only [List.flatMap_cons, List.flatMap_nil, List.append_nil]

variable (ft : FloatText)

/-- What RESP2 has in a place says what RESP3 has there: a score has a text that reads as
this number, and all else is the same. -/
def Says : Frame → Frame → Prop
  | .bulk text, .double score => ScoreText ft text score
  | f, g => f = g

theorem Says.refl (f : Frame) : Says ft f f := by
  cases f <;> exact rfl

/-- A reply for RESP2 and one for RESP3 that carry the same, place by place. -/
def CarrySame (f g : Frame) : Prop := List.Forall₂ (Says ft) (content f) (content g)

theorem carrySame_of_eq {f g : Frame} (h : content f = content g) : CarrySame ft f g := by
  rw [CarrySame, h]
  exact List.forall₂_same.mpr fun f _ => .refl ft f

theorem carrySame_scoreFrame {ft : FloatText} (hft : ft.ReadsScores) (score : F64) :
    CarrySame ft (scoreFrame ft .v2 score) (scoreFrame ft .v3 score) :=
  .cons (scoreText_formatScore hft score) .nil

theorem carrySame_rangeReply {ft : FloatText} (hft : ft.ReadsScores) (withscores : Bool)
    (pairs : List (Bytes × F64)) :
    CarrySame ft (rangeReply ft .v2 withscores pairs) (rangeReply ft .v3 withscores pairs) := by
  cases withscores with
  | false => exact carrySame_of_eq ft rfl
  | true =>
    unfold rangeReply
    rw [if_neg (by decide), if_neg (by decide)]
    dsimp only
    rw [CarrySame, content_flat, content_array, List.flatMap_map]
    refine List.rel_flatMap (R := Eq) (List.forall₂_refl pairs) ?_
    rintro p _ rfl
    have hscore := scoreText_formatScore hft p.2
    exact .cons (.refl ft _) (.cons hscore .nil)

end Content

/-! ## Two executions -/

section Same

variable (ft : FloatText)

/-- From equal stores: equal stores after, and replies that carry the same. -/
def Same (m m' : CommandM Frame) : Prop :=
  ∀ w, (m w).2 = (m' w).2 ∧ (ft.ReadsScores → CarrySame ft (m w).1 (m' w).1)

theorem Same.refl (m : CommandM Frame) : Same ft m m := fun _ => ⟨rfl, fun _ => carrySame_of_eq ft rfl⟩

theorem same_replyWith {α : Type} (p : StoreM α) {reply reply' : α → Frame}
    (h : ∀ a, ft.ReadsScores → CarrySame ft (reply a) (reply' a)) :
    Same ft (replyWith p reply) (replyWith p reply') := by
  intro w
  rw [replyWith_apply, replyWith_apply]
  cases (p.run exec w).1 with
  | ok a => exact ⟨rfl, h a⟩
  | error e => exact ⟨rfl, fun _ => carrySame_of_eq ft rfl⟩

variable (args : List Bytes)

theorem same_hgetall : Same ft (hgetallCommand .v2 args) (hgetallCommand .v3 args) := by
  apply same_replyWith
  intro pairs _
  apply carrySame_of_eq
  dsimp only
  rw [content_flat, content, contentPairs_eq, List.flatMap_map]

theorem same_smembers : Same ft (smembersCommand .v2 args) (smembersCommand .v3 args) := by
  apply same_replyWith
  intro members _
  exact carrySame_of_eq ft rfl

theorem same_zscore : Same ft (zscoreCommand ft .v2 args) (zscoreCommand ft .v3 args) := by
  apply same_replyWith
  intro score hft
  cases score with
  | none => exact carrySame_of_eq ft rfl
  | some score => exact carrySame_scoreFrame hft score

theorem same_zrange : Same ft (zrangeCommand ft .v2 args) (zrangeCommand ft .v3 args) := by
  unfold zrangeCommand
  split
  · dsimp only
    split
    · exact .refl ft _
    · split
      · exact .refl ft _
      · exact same_replyWith ft _ fun pairs hft => carrySame_rangeReply hft _ pairs
  · exact .refl ft _

theorem same_zrangebyscore : Same ft (zrangebyscoreCommand ft .v2 args) (zrangebyscoreCommand ft .v3 args) := by
  unfold zrangebyscoreCommand
  split
  · split
    · exact .refl ft _
    · exact same_replyWith ft _ fun pairs hft => carrySame_rangeReply hft _ _
  · exact .refl ft _

/-- Every registered command. -/
theorem same_handler :
    ∀ spec ∈ standardCommands ft, Same ft (spec.handler .v2 args) (spec.handler .v3 args) := by
  have hrefl : ∀ m : CommandM Frame, Same ft m m := Same.refl ft
  simp only [standardCommands, List.forall_mem_cons]
  simp only [hrefl, same_hgetall, same_smembers, same_zscore, same_zrange, same_zrangebyscore,
    List.not_mem_nil, false_implies, implies_true, and_self]

theorem same_registryDispatch : Same ft (registryDispatch ft .v2 args) (registryDispatch ft .v3 args) := by
  cases args with
  | nil => exact .refl ft _
  | cons first rest =>
    unfold registryDispatch
    dsimp only
    split
    · exact .refl ft _
    · rename_i spec hfind
      split
      · exact same_handler ft _ spec (List.mem_of_find?_eq_some hfind)
      · exact .refl ft _

/-- Everything but `HELLO` has equal effects for both versions and carries the same. -/
theorem same_dispatch (connId : Int64) {args : List Bytes} (h : upperName (arg args 0) ≠ "HELLO") (w : World) :
    (dispatch ft args .v2 connId w).2 = (dispatch ft args .v3 connId w).2 ∧
      (ft.ReadsScores → CarrySame ft (dispatch ft args .v2 connId w).1.reply
        (dispatch ft args .v3 connId w).1.reply) := by
  unfold dispatch
  rw [if_neg h, if_neg h]
  have hsame : ∀ reply, ft.ReadsScores → CarrySame ft reply reply := fun _ _ => carrySame_of_eq ft rfl
  split_ifs
  · exact ⟨rfl, hsame _⟩
  · exact ⟨rfl, hsame _⟩
  · exact ⟨rfl, hsame _⟩
  · exact ⟨rfl, hsame _⟩
  · exact ⟨rfl, hsame _⟩
  · exact same_registryDispatch ft args w

end Same

/-! ## Sessions -/

section Sessions

variable (ft : FloatText) (connId : Int64) (version : RespVersion) (w : World)

theorem dispatch_hello {args : List Bytes} (h : upperName (arg args 0) = "HELLO") :
    dispatch ft args version connId = pure (hello args version connId) := by
  unfold dispatch
  rw [if_pos h]

/-- Only `HELLO` switches the codec. -/
theorem wireVersion_dispatch {args : List Bytes} (h : upperName (arg args 0) ≠ "HELLO") :
    (dispatch ft args version connId w).1.wireVersion version = version := by
  unfold dispatch
  rw [if_neg h]
  split_ifs <;> rfl

/-- A `HELLO` says what it would say were the codec switched already. -/
theorem hello_shaped (args : List Bytes) :
    let action := hello args version connId
    action.reply = (hello args (action.wireVersion version) connId).reply ∧
      (action.reply = helloReply (action.wireVersion version) connId ∨ ∃ text, action.reply = .error text) := by
  intro action
  unfold action hello
  split
  · exact ⟨rfl, .inl rfl⟩
  · split
    · exact ⟨rfl, .inl rfl⟩
    · exact ⟨rfl, .inr ⟨_, rfl⟩⟩

theorem dispatch_shaped (args : List Bytes) :
    let action := (dispatch ft args version connId w).1
    Exchange.Shaped ft connId ⟨some args, w, action.reply, action.wireVersion version⟩ := by
  intro action
  by_cases h : upperName (arg args 0) = "HELLO"
  · have hhello : action = hello args version connId := by
      unfold action
      rw [dispatch_hello ft connId version h]
      rfl
    obtain ⟨hsame, hreply⟩ := hello_shaped connId version args
    refine ⟨?_, fun _ => ?_⟩
    · dsimp only
      rw [dispatch_hello ft connId _ h, hhello]
      exact hsame
    · rw [hhello]
      exact hreply
  · have hversion : action.wireVersion version = version := wireVersion_dispatch ft connId version w h
    rw [hversion]
    exact ⟨rfl, fun hhello => absurd hhello h⟩

/-- A reply that is encoded for RESP2 has only kinds of RESP2 in it. -/
theorem dispatch_resp2 (args : List Bytes) :
    let action := (dispatch ft args version connId w).1
    action.wireVersion version = .v2 → action.reply.Everywhere Frame.Resp2 := by
  intro action hv2
  by_cases hnames : NamesOnOneLine args
  · have hbuilt : action.reply.Built (action.wireVersion version) :=
      gives_dispatch ft version connId hnames w
    rw [hv2] at hbuilt
    exact hbuilt.resp2
  · obtain ⟨s, hreply, -⟩ := dispatch_quotes ft version connId hnames w
    rw [hreply]
    exact .leaf trivial rfl

/-- What holds of the reply to every request from every version and store, and of the
answer to a malformed stream, holds of all that is sent. -/
theorem handleConnection_all {P : Exchange → Prop}
    (hrequest : ∀ args version w, args ≠ [] →
      let action := (dispatch ft args version connId w).1
      P ⟨some args, w, action.reply, action.wireVersion version⟩)
    (hmalformed : ∀ (reason : String) version w, P ⟨none, w, .error s!"ERR Protocol error: {reason}", version⟩)
    (arrivals : List Arrival) : ∀ e ∈ (handleConnection ft connId arrivals version w).1, P e := by
  induction arrivals generalizing version w with
  | nil => exact fun e he => absurd he List.not_mem_nil
  | cons arrival arrivals ih =>
    cases arrival with
    | malformed reason => exact List.forall_mem_singleton.mpr (hmalformed reason version w)
    | meanwhile others => exact ih version (others w)
    | request args =>
      unfold handleConnection
      dsimp only
      split
      · exact ih version w
      · rename_i hargs
        have hsent := hrequest args version w hargs
        split
        · exact List.forall_mem_singleton.mpr hsent
        · exact List.forall_mem_cons.mpr ⟨hsent, ih _ _⟩

/-- Replies fit their version, over whole sessions. All that is sent while the codec is
at RESP2 has at every depth only kinds of RESP2 in it; every reply is encoded for the
version it was made for; and every other command than `HELLO` has for both versions equal
effects on the store, and replies that carry the same in the same order: equal fields and
members, and for each score of RESP3 a text in RESP2 that is read as this number. -/
theorem session_replies_fit (arrivals : List Arrival) :
    (∀ e ∈ (handleConnection ft connId arrivals version w).1,
      (e.version = .v2 → e.reply.Everywhere Frame.Resp2) ∧ e.Shaped ft connId) ∧
    ∀ (args : List Bytes) (w : World), upperName (arg args 0) ≠ "HELLO" →
      (dispatch ft args .v2 connId w).2 = (dispatch ft args .v3 connId w).2 ∧
        (ft.ReadsScores → CarrySame ft (dispatch ft args .v2 connId w).1.reply
          (dispatch ft args .v3 connId w).1.reply) := by
  refine ⟨?_, fun args w hname => same_dispatch ft connId hname w⟩
  apply handleConnection_all
  · intro args version w _
    exact ⟨dispatch_resp2 ft connId version w args, dispatch_shaped ft connId version w args⟩
  · intro reason version w
    exact ⟨fun _ => .leaf trivial rfl, _, rfl⟩

/-- A sorted set with a fraction, a whole number and an infinity. -/
def scoresWorld : World :=
  (dispatch FloatText.whole [utf8 "ZADD", utf8 "k", utf8 "3.25", utf8 "a", utf8 "-2", utf8 "b", utf8 "inf", utf8 "c"]
    .v2 1 emptyWorld).2

def scoresQuery : List Bytes := [utf8 "ZRANGE", utf8 "k", utf8 "0", utf8 "-1", utf8 "WITHSCORES"]

/-- The scores are asked for at RESP3 and, there and back, at RESP2. -/
theorem session_replies_fit_scores :
    let ft := FloatText.whole
    let sent := (handleConnection ft 1 [.request [utf8 "HELLO", utf8 "3"], .request scoresQuery,
      .request [utf8 "HELLO", utf8 "2"], .request scoresQuery] .v2 scoresWorld).1
    let reply := fun version => (dispatch ft scoresQuery version 1 scoresWorld).1.reply
    sent.map Exchange.version = [.v3, .v3, .v2, .v2] ∧
      (∀ e ∈ sent, e.version = .v2 → e.reply.Everywhere Frame.Resp2) ∧
      encode ft .v2 (reply .v2) =
        utf8 "*6\r\n$1\r\nb\r\n$2\r\n-2\r\n$1\r\na\r\n$4\r\n3.25\r\n$1\r\nc\r\n$3\r\ninf\r\n" ∧
      encode ft .v3 (reply .v3) =
        utf8 "*3\r\n*2\r\n$1\r\nb\r\n,-2\r\n*2\r\n$1\r\na\r\n,3.25\r\n*2\r\n$1\r\nc\r\n,inf\r\n" ∧
      CarrySame ft (reply .v2) (reply .v3) := by
  intro ft sent reply
  have hfit := session_replies_fit ft 1 .v2 scoresWorld [.request [utf8 "HELLO", utf8 "3"], .request scoresQuery,
    .request [utf8 "HELLO", utf8 "2"], .request scoresQuery]
  refine ⟨by decide +kernel, fun e he => (hfit.1 e he).1, by decide +kernel, by decide +kernel, ?_⟩
  exact (hfit.2 scoresQuery scoresWorld (by decide +kernel)).2 FloatText.whole_readsScores

end Sessions

end GameStore
