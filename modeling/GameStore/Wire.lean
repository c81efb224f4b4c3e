import GameStore.Lib.Messages
import GameStore.Agreement
import GameStore.Negotiation

/-!
# A connection from byte to byte

The codec turns the bytes of a connection into requests as they come in, and the replies
into bytes. A client that writes its requests one after the other, without waiting, and
reads what comes back gets one reply to each, in order, however the network cuts the two
streams: within the limits of both sides, and while no command name holds a CRLF.
-/

namespace GameStore

open Lib

/-! ## The codec (`CommandCodec` in a `Framed` stream) -/

/-- `Display` of `ProtocolError`. -/
def ProtocolError.toText : ProtocolError → String
  | .malformed msg => s!"protocol error: {msg}"
  | .limitExceeded msg => s!"value exceeds configured limit: {msg}"
  | .inlineSyntax msg => s!"invalid inline command: {msg}"

/-- What the stream yields for the chunks that are read from it until the client closes. When
it closes in the middle of a request, the stream ends with an error of its own. -/
def received (limits : Limits) (chunks : List Bytes) : List Arrival :=
  let items := feed (decodeCommand limits) chunks []
  let ending : List Arrival := match items.2 with
    | some e => [.malformed e.toText]
    | none =>
      if residue (decodeCommand limits) chunks [] = [] then []
      else [.malformed "i/o error: bytes remaining on stream"]
  items.1.map .request ++ ending

section Wire

variable (ft : FloatText) (limits : Limits) (connId : Int64)

/-- What is written for an exchange. -/
def Exchange.sent (e : Exchange) : Bytes := encode ft e.version e.reply

/-- A whole connection: the chunks that are read, and what is written. -/
def serveConnection (chunks : List Bytes) : CommandM Bytes := do
  let exchanges ← handleConnection ft connId (received limits chunks) .v2
  pure (exchanges.flatMap (Exchange.sent ft))

/-! ## The client -/

/-- A request as a client writes it: an array of bulk strings. -/
def requestBytes (args : List Bytes) : Bytes := encode ft .v2 (.array (args.map .bulk))

/-- The server's limits allow the request. -/
structure Admissible (args : List Bytes) : Prop where
  nonempty : args ≠ []
  count : SizeWithin limits.maxArrayLen args.length
  sizes : ∀ a ∈ args, SizeWithin limits.maxBulkLen a.length

instance (limit n : ℕ) : Decidable (SizeWithin limit n) := inferInstanceAs (Decidable (n ≤ limit ∧ n < 2 ^ 63))

/-- The requests that are answered: the server closes the connection after `QUIT`. -/
def untilQuit : List (List Bytes) → List (List Bytes)
  | [] => []
  | args :: rest => if upperName (arg args 0) = "QUIT" then [args] else args :: untilQuit rest

variable {ft limits}

theorem requestBytes_head (args : List Bytes) : (requestBytes ft args).head? = some 42 := by
  rw [requestBytes, encode]
  rfl

theorem reads_request (hft : ft.Lawful) {args : List Bytes} (h : Admissible limits args) (rest : Bytes) :
    parseCommand limits (requestBytes ft args ++ rest) = .ok (some (args, (requestBytes ft args).length)) := by
  have hstar : (requestBytes ft args ++ rest).head? = some 42 := by
    rw [List.head?_append, requestBytes_head]
    rfl
  have hbulk : ∀ g ∈ (Frame.array (args.map .bulk)).children, g.children = [] ∧ g.Lined ∧ g.Sized limits := by
    intro g hg
    obtain ⟨a, ha, rfl⟩ := List.mem_map.mp hg
    exact ⟨rfl, trivial, h.sizes a ha⟩
  have hnested : (Frame.array (args.map .bulk)).Nested 1 := .node fun g hg => .leaf (hbulk g hg).1
  have hlined : (Frame.array (args.map .bulk)).Everywhere Frame.Lined :=
    .intro trivial fun g hg => .leaf (hbulk g hg).2.1 (hbulk g hg).1
  have hcount : Frame.Sized limits (.array (args.map .bulk)) := by
    rw [Frame.Sized, List.length_map]
    exact h.count
  have hsized : (Frame.array (args.map .bulk)).Everywhere (Frame.Sized limits) :=
    .intro hcount fun g hg => .leaf (hbulk g hg).2.2 (hbulk g hg).1
  have hcanon : (Frame.array (args.map .bulk)).canon = .array (args.map .bulk) := by
    refine Frame.Everywhere.canon_eq (.intro trivial fun g hg => ?_)
    obtain ⟨a, ha, rfl⟩ := List.mem_map.mp hg
    exact .leaf trivial rfl
  have hread := hnested.reads_encode .v2 hft hlined hsized [] rest
  rw [hcanon, List.nil_append, List.length_nil, Nat.zero_add] at hread
  change parseFrame ft limits (1 + 1) (requestBytes ft args ++ rest) 0 = _ at hread
  rw [parseFrame_array 1 hstar] at hread
  rw [parseCommand_multibulk hstar]
  exact (multibulk_agrees 0 _ h.nonempty _).mpr hread

/-- A request that is not there whole is waited for. -/
theorem legible_request (hft : ft.Lawful) {args : List Bytes} (h : Admissible limits args) :
    Legible (parseCommand limits) (requestBytes ft) id args := by
  refine ⟨reads_request hft h, fun b c e hbc he => ?_⟩
  cases b with
  | nil => cases he
  | cons x b =>
    have hhead : (requestBytes ft args).head? = some 42 := requestBytes_head args
    have hx : (x :: b).head? = some 42 := by
      rw [← hhead, ← hbc]
      rfl
    have hwhole := reads_request hft h []
    rw [List.append_nil, parseCommand_multibulk hhead, ← hbc,
      (settled_parseMultibulk.stable).error ((parseCommand_multibulk hx).symm.trans he)] at hwhole
    cases hwhole

theorem received_requests (hft : ft.Lawful) {requests : List (List Bytes)}
    (hreq : ∀ args ∈ requests, Admissible limits args) {chunks : List Bytes}
    (hchunks : chunks.flatten = requests.flatMap (requestBytes ft)) :
    received limits chunks = requests.map .request := by
  have hempty : parseCommand limits [] = .ok none := rfl
  obtain ⟨hfeed, hres⟩ := feed_messages keepsItems_parseCommand advances_parseCommand hempty
    (fun args hargs => legible_request hft (hreq args hargs)) hempty hchunks
  rw [received, decodeCommand, hfeed, hres]
  simp

/-! ## Whole connections -/

variable (ft)

/-- Only `QUIT` closes the connection. -/
theorem close_dispatch (args : List Bytes) (version : RespVersion) (w : World) :
    (dispatch ft args version connId w).1.close = decide (upperName (arg args 0) = "QUIT") := by
  have hmap : ∀ m : CommandM Frame, ((Action.ofReply <$> m) w).1.close = false := fun _ => rfl
  unfold dispatch
  split_ifs with hhello hquit
  · rw [hhello]
    unfold hello
    split
    · rfl
    · split <;> rfl
  · rw [hquit]
    rfl
  all_goals
    rw [decide_eq_false hquit]
    rfl

/-- The requests before and with the first `QUIT` are answered, one by one and in order. -/
theorem requests_answered {requests : List (List Bytes)} (hne : ∀ args ∈ requests, args ≠ []) (version : RespVersion)
    (w : World) : (handleConnection ft connId (requests.map .request) version w).1.map Exchange.request =
      (untilQuit requests).map some := by
  induction requests generalizing version w with
  | nil => rfl
  | cons args rest ih =>
    obtain ⟨hargs, hrest⟩ := List.forall_mem_cons.mp hne
    rw [List.map_cons, handleConnection, untilQuit]
    dsimp only
    rw [if_neg hargs, close_dispatch]
    by_cases hquit : upperName (arg args 0) = "QUIT"
    · rw [if_pos hquit, if_pos (decide_eq_true hquit)]
      rfl
    · rw [if_neg hquit, decide_eq_false hquit, if_neg Bool.false_ne_true, List.map_cons, List.map_cons,
        ih hrest]

theorem mem_untilQuit {requests : List (List Bytes)} {args : List Bytes} (h : args ∈ untilQuit requests) :
    args ∈ requests := by
  induction requests with
  | nil => exact h
  | cons first rest ih =>
    rw [untilQuit] at h
    split at h
    · rw [List.mem_singleton.mp h]
      exact List.mem_cons_self
    · obtain rfl | h := List.mem_cons.mp h
      · exact List.mem_cons_self
      · exact List.mem_cons_of_mem _ (ih h)

theorem exchange_clean (arrivals : List Arrival) (version : RespVersion) (w : World) :
    ∀ e ∈ (handleConnection ft connId arrivals version w).1, ∀ args, e.request = some args →
      NamesOnOneLine args → e.reply.Clean := by
  apply handleConnection_all
  · intro args version w _ action args' hargs hnames
    obtain rfl : args = args' := Option.some.inj hargs
    exact (gives_dispatch ft version connId hnames w).clean
  · intro reason version w args hargs
    cases hargs

/-- Pipelining. Requests that the server's limits allow, and whose command names and `CLIENT`
subcommands hold no CRLF, are written one after the other and reach the server in any
chunks: it serves them in order up to the first `QUIT`, each on the store the last one
left. What it writes reaches the client in any chunks: if the client's own limits allow the
replies, it reads the reply to each request, in order, and nothing else. -/
theorem pipelined_session (hft : ft.Lawful) (limits : Limits) {requests : List (List Bytes)}
    (hreq : ∀ args ∈ requests, Admissible limits args ∧ NamesOnOneLine args) {chunks : List Bytes}
    (hchunks : chunks.flatten = requests.flatMap (requestBytes ft)) (w : World) :
    let exchanges := (handleConnection ft connId (requests.map .request) .v2 w).1
    exchanges.map Exchange.request = (untilQuit requests).map some ∧
      (serveConnection ft limits connId chunks w).2 = (handleConnection ft connId (requests.map .request) .v2 w).2 ∧
      ∀ (own : Limits) (replies : List Bytes), (∀ e ∈ exchanges, e.reply.Everywhere (Frame.Sized own) ∧
          e.reply.Nested own.maxDepth) →
        replies.flatten = (serveConnection ft limits connId chunks w).1 →
          feed (decode ft own) replies [] = (exchanges.map fun e => e.reply.canon, none) := by
  intro exchanges
  have hne : ∀ args ∈ requests, args ≠ [] := fun args hargs => (hreq args hargs).1.nonempty
  have hserve : serveConnection ft limits connId chunks w =
      (exchanges.flatMap (Exchange.sent ft), (handleConnection ft connId (requests.map .request) .v2 w).2) := by
    have hreceived := received_requests hft (fun args hargs => (hreq args hargs).1) hchunks
    rw [serveConnection, hreceived]
    rfl
  have hanswered := requests_answered ft connId hne .v2 w
  refine ⟨hanswered, by rw [hserve], fun own replies hfits hreplies => ?_⟩
  rw [hserve] at hreplies
  have hsettled := settled_parseFrame ft own (own.maxDepth + 1) 0
  refine (feed_messages hsettled.stable.keepsItems (advances_parseFrame ft own (own.maxDepth + 1) 0) rfl
    (fun e he => ?_) rfl hreplies).1
  apply legible_of_stable hsettled.stable
  intro rest
  obtain ⟨args, hargs⟩ : ∃ args, args ∈ untilQuit requests ∧ e.request = some args := by
    have hmem : e.request ∈ (untilQuit requests).map some := hanswered ▸ List.mem_map_of_mem he
    obtain ⟨args, hargs, hsome⟩ := List.mem_map.mp hmem
    exact ⟨args, hargs, hsome.symm⟩
  have hclean := exchange_clean ft connId _ .v2 w e he args hargs.2 (hreq args (mem_untilQuit hargs.1)).2
  have hread := (hfits e he).2.reads_encode e.version hft hclean (hfits e he).1 [] rest
  rw [List.nil_append, List.length_nil, Nat.zero_add] at hread
  exact hread

/-- Requests written at once, one of them after the connection is closed. -/
def pipelined : List (List Bytes) := [[utf8 "PING"], [utf8 "ECHO", CRLF], [utf8 "QUIT"], [utf8 "PING"]]

/-- They are cut in the middle of a payload. -/
def pipelinedChunks : List Bytes :=
  [(pipelined.flatMap (requestBytes FloatText.quarter)).take 41,
    (pipelined.flatMap (requestBytes FloatText.quarter)).drop 41]

theorem pipelined_session_echo :
    (serveConnection FloatText.quarter Limits.default 1 pipelinedChunks emptyWorld).2.disk.isEmpty = true ∧
      feed (decode FloatText.quarter Limits.default)
          [(serveConnection FloatText.quarter Limits.default 1 pipelinedChunks emptyWorld).1.take 3,
            (serveConnection FloatText.quarter Limits.default 1 pipelinedChunks emptyWorld).1.drop 3] [] =
        ([.simple "PONG", .bulk CRLF, .simple "OK"], none) := by
  have hreq : ∀ args ∈ pipelined, Admissible Limits.default args ∧ NamesOnOneLine args := by
    intro args hargs
    simp only [pipelined, List.mem_cons, List.not_mem_nil, or_false] at hargs
    obtain rfl | rfl | rfl | rfl := hargs <;>
      exact ⟨⟨by decide, ⟨by decide, by decide⟩, by decide +kernel⟩, by decide, fun h => absurd h (by decide)⟩
  have hchunks : pipelinedChunks.flatten = pipelined.flatMap (requestBytes FloatText.quarter) := by
    simp [pipelinedChunks]
  obtain ⟨-, hleft, hread⟩ := pipelined_session FloatText.quarter 1 FloatText.quarter_lawful Limits.default hreq
    hchunks emptyWorld
  have hreplies : (handleConnection FloatText.quarter 1 (pipelined.map .request) .v2 emptyWorld).1.map
      Exchange.reply = [.simple "PONG", .bulk CRLF, .simple "OK"] := rfl
  have hfits : ∀ e ∈ (handleConnection FloatText.quarter 1 (pipelined.map .request) .v2 emptyWorld).1,
      e.reply.Everywhere (Frame.Sized Limits.default) ∧ e.reply.Nested Limits.default.maxDepth := by
    intro e he
    have hmem := List.mem_map_of_mem (f := Exchange.reply) he
    rw [hreplies] at hmem
    simp only [List.mem_cons, List.not_mem_nil, or_false] at hmem
    obtain h | h | h := hmem
    · rw [h]
      exact ⟨.leaf trivial rfl, .leaf rfl⟩
    · rw [h]
      exact ⟨.leaf ⟨by decide, by decide⟩ rfl, .leaf rfl⟩
    · rw [h]
      exact ⟨.leaf trivial rfl, .leaf rfl⟩
  refine ⟨by rw [hleft]; rfl, ?_⟩
  rw [hread Limits.default _ hfits (by simp)]
  rfl

end Wire

end GameStore
