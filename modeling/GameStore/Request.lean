import GameStore.Fragment

/-!
# Requests (`decode_command`)

A request is a multibulk array or an inline line. Multibulk requests settle as frames
do. An inline line does not: once the buffer is longer than the limit and holds no CRLF
it is refused, even when the CRLF of a line within the limit is on its way.
-/

namespace GameStore

open Lib

/-! ## Multibulk requests -/

/-- One `$`-prefixed argument. -/
def parseArg (limits : Limits) : Bytes → ℕ → Result Bytes :=
  byteThen fun b input start =>
    if b ≠ 36 then .error (.malformed s!"expected '$' in multibulk, got 0x{hex2 b}")
    else (parseHeader input start).bind fun len afterHdr =>
      if len < 0 then .error (.malformed "null bulk string not allowed in a request")
      else if limits.maxBulkLen < len.toNat then
        .error (.limitExceeded s!"bulk length {len} exceeds limit {limits.maxBulkLen}")
      else readPayload input afterHdr len.toNat "bulk not terminated by CRLF"

/-- What follows the `*`; a count that is not positive is a request without arguments. -/
def parseMultibulk (limits : Limits) (input : Bytes) : Result (List Bytes) :=
  (parseHeader input 1).bind fun count pos =>
    if count ≤ 0 then .ok (some ([], pos))
    else if limits.maxArrayLen < count.toNat then
      .error (.limitExceeded s!"multibulk length {count} exceeds limit {limits.maxArrayLen}")
    else parseItems (parseArg limits) input count.toNat pos

/-! ## Inline requests -/

def isSpace (b : UInt8) : Bool := b ∈ [32, 9, 13, 10, 11, 12]

def isHex (b : UInt8) : Bool :=
  (48 ≤ b && b ≤ 57) || (97 ≤ b && b ≤ 102) || (65 ≤ b && b ≤ 70)

def hexVal (b : UInt8) : UInt8 :=
  if 48 ≤ b && b ≤ 57 then b - 48
  else if 97 ≤ b && b ≤ 102 then b - 97 + 10
  else if 65 ≤ b && b ≤ 70 then b - 65 + 10
  else 0

/-- The escapes of one letter. -/
def unescape (b : UInt8) : UInt8 :=
  match b with
  | 110 => 10
  | 114 => 13
  | 116 => 9
  | 98 => 8
  | 97 => 7
  | other => other

/-- Where the tokenizer stands: between arguments, or in one, with its bytes so far. -/
inductive Token
  | gap
  | bare (cur : Bytes)
  | double (cur : Bytes)
  | single (cur : Bytes)

/-- A closing quote is followed by white space or the end of the line. -/
def closeQuote (cur rest : Bytes) (args : Except ProtocolError (List Bytes)) :
    Except ProtocolError (List Bytes) :=
  if rest.head?.any fun b => !isSpace b then .error (.inlineSyntax "closing quote not followed by space")
  else args.map fun args => cur :: args

def splitFrom : Token → Bytes → Except ProtocolError (List Bytes)
  | .gap, [] => .ok []
  | .gap, b :: rest =>
    if isSpace b then splitFrom .gap rest
    else if b = 34 then splitFrom (.double []) rest
    else if b = 39 then splitFrom (.single []) rest
    else splitFrom (.bare [b]) rest
  | .bare cur, [] => .ok [cur]
  | .bare cur, b :: rest =>
    if isSpace b then (splitFrom .gap rest).map fun args => cur :: args
    else splitFrom (.bare (cur ++ [b])) rest
  | .double _, [] => .error (.inlineSyntax "unbalanced double quotes")
  | .double cur, b :: rest =>
    if b = 34 then closeQuote cur rest (splitFrom .gap rest)
    else if b = 92 then match rest with
      | 120 :: hi :: lo :: rest =>
        -- `\xHH`; without two hex digits the `x` stands for itself.
        if isHex hi && isHex lo then splitFrom (.double (cur ++ [hexVal hi <<< 4 ||| hexVal lo])) rest
        else splitFrom (.double (cur ++ [120])) (hi :: lo :: rest)
      | e :: rest => splitFrom (.double (cur ++ [unescape e])) rest
      | [] => .error (.inlineSyntax "unbalanced double quotes")
    else splitFrom (.double (cur ++ [b])) rest
  | .single _, [] => .error (.inlineSyntax "unbalanced single quotes")
  | .single cur, b :: rest =>
    if b = 39 then closeQuote cur rest (splitFrom .gap rest)
    else if b = 92 then match rest with
      | 39 :: rest => splitFrom (.single (cur ++ [39])) rest
      | rest => splitFrom (.single (cur ++ [92])) rest
    else splitFrom (.single (cur ++ [b])) rest

def splitInline (line : Bytes) : Except ProtocolError (List Bytes) := splitFrom .gap line

/-- A line, or the start of one. -/
def parseInline (limits : Limits) (buf : Bytes) : Result (List Bytes) :=
  match readLine buf 0 with
  | .ok (some (line, consumed)) =>
    if limits.maxInlineLen < line.length then
      .error (.limitExceeded
        s!"inline command of {line.length} bytes exceeds limit {limits.maxInlineLen}")
    else (splitInline line).map fun args => some (args, consumed)
  | .ok none =>
    -- No CRLF yet.
    if limits.maxInlineLen < buf.length then
      .error (.limitExceeded s!"inline command exceeds limit {limits.maxInlineLen} before end of line")
    else .ok none
  | .error e => .error e

def parseCommand (limits : Limits) (buf : Bytes) : Result (List Bytes) :=
  match buf with
  | [] => .ok none
  | b :: _ => if b = 42 then parseMultibulk limits buf else parseInline limits buf

/-- One request from the front of the buffer, and the buffer after it. -/
def decodeCommand (limits : Limits) : Bytes → Polled UInt8 ProtocolError (List Bytes) :=
  advance (parseCommand limits)

/-! ## What settles -/

section Requests

variable {limits : Limits}

theorem settled_parseArg (start : ℕ) : Settled start fun b => parseArg limits b start := by
  apply settled_byteThen
  intro b start
  refine Settled.ite (Settled.error _) ((settled_fromLine _ start).bind fun len afterHdr => ?_)
  exact Settled.ite (Settled.error _) (Settled.ite (Settled.error _) (settled_readPayload _ _ _))

theorem settled_parseMultibulk : Settled 1 (parseMultibulk limits) := by
  refine (settled_fromLine _ 1).bind fun count pos => ?_
  refine Settled.ite (Settled.value _) (Settled.ite (Settled.error _) ?_)
  exact settled_parseItems settled_parseArg count.toNat pos

theorem parseCommand_multibulk {buf : Bytes} (h : buf.head? = some 42) :
    parseCommand limits buf = parseMultibulk limits buf := by
  obtain ⟨buf, rfl⟩ := List.head?_eq_some_iff.mp h
  rw [parseCommand, if_pos rfl]

theorem parseCommand_inline {buf : Bytes} (hne : buf ≠ []) (h : buf.head? ≠ some 42) :
    parseCommand limits buf = parseInline limits buf := by
  obtain ⟨b, rest, rfl⟩ := List.exists_cons_of_ne_nil hne
  exact if_neg fun hb => h (congrArg some hb)

/-- A buffer that holds a whole line. -/
theorem parseInline_line {buf line : Bytes} {next : ℕ} (h : readLine buf 0 = .ok (some (line, next))) :
    parseInline limits buf =
      if limits.maxInlineLen < line.length then
        .error (.limitExceeded
          s!"inline command of {line.length} bytes exceeds limit {limits.maxInlineLen}")
      else (splitInline line).map fun args => some (args, next) := by
  rw [parseInline, h]

/-- A buffer without the end of its line. -/
theorem parseInline_open {buf : Bytes} (h : readLine buf 0 = .ok none) :
    parseInline limits buf =
      if limits.maxInlineLen < buf.length then
        .error (.limitExceeded s!"inline command exceeds limit {limits.maxInlineLen} before end of line")
      else .ok none := by
  rw [parseInline, h]

theorem readLine_zero (buf : Bytes) :
    readLine buf 0 = .ok ((findPair 13 10 buf).map fun i => (slice buf 0 (0 + i), 0 + i + 2)) := by
  rw [readLine, if_neg (Nat.not_lt_zero _), List.drop_zero]

/-- There is a line exactly when there is a CRLF. -/
theorem readLine_eq_none_iff {buf : Bytes} : readLine buf 0 = .ok none ↔ ¬ CRLF <:+: buf := by
  rw [readLine_zero, CRLF, ← findPair_eq_none_iff]
  simp

theorem exists_readLine {buf : Bytes} (h : CRLF <:+: buf) :
    ∃ line next, readLine buf 0 = .ok (some (line, next)) := by
  rw [CRLF, ← not_not (a := [13, 10] <:+: buf), ← findPair_eq_none_iff] at h
  obtain ⟨i, hi⟩ := Option.ne_none_iff_exists'.mp h
  rw [readLine_zero, hi]
  exact ⟨_, _, rfl⟩

/-- A line is one of the whole stream, too. -/
theorem readLine_append {buf line : Bytes} {next : ℕ} (h : readLine buf 0 = .ok (some (line, next)))
    (more : Bytes) : readLine (buf ++ more) 0 = .ok (some (line, next)) :=
  (settled_readLine 0).stable.keepsItems buf more line next h

theorem keepsItems_parseCommand : KeepsItems (parseCommand limits) := by
  intro b c args next h
  have hne : b ≠ [] := by
    rintro rfl
    cases h
  have hhead : (b ++ c).head? = b.head? := List.head?_append_of_ne_nil b hne
  by_cases hstar : b.head? = some 42
  · rw [parseCommand_multibulk hstar] at h
    rw [parseCommand_multibulk (hhead.trans hstar)]
    exact settled_parseMultibulk.stable.keepsItems b c args next h
  · have hne' : b ++ c ≠ [] := List.append_ne_nil_of_left_ne_nil hne c
    rw [parseCommand_inline hne hstar] at h
    rw [parseCommand_inline hne' (hhead ▸ hstar)]
    by_cases hcrlf : CRLF <:+: b
    · obtain ⟨line, stop, hline⟩ := exists_readLine hcrlf
      rw [parseInline_line hline] at h
      rw [parseInline_line (readLine_append hline c), h]
    · rw [parseInline_open (readLine_eq_none_iff.mpr hcrlf)] at h
      split at h
      · cases h
      · cases h

theorem advances_parseCommand : Advances 0 (parseCommand limits) := by
  intro b args next h
  have hne : b ≠ [] := by
    rintro rfl
    cases h
  have hlen : 1 ≤ b.length := List.length_pos_of_ne_nil hne
  by_cases hstar : b.head? = some 42
  · rw [parseCommand_multibulk hstar] at h
    have := settled_parseMultibulk.within b args next hlen h
    omega
  · rw [parseCommand_inline hne hstar] at h
    by_cases hcrlf : CRLF <:+: b
    · obtain ⟨line, stop, hline⟩ := exists_readLine hcrlf
      rw [parseInline_line hline] at h
      split at h
      · cases h
      · cases hsplit : splitInline line with
        | error e =>
          rw [hsplit] at h
          cases h
        | ok args =>
          rw [hsplit] at h
          cases h
          exact advances_readLine 0 b line next hline
    · rw [parseInline_open (readLine_eq_none_iff.mpr hcrlf)] at h
      split at h
      · cases h
      · cases h

/-! ## Where it goes wrong -/

/-- An inline line has outgrown the limit before its CRLF is there, and the CRLF is among
the bytes still to come. -/
def Overtaken (limits : Limits) (pending rest : Bytes) : Prop :=
  pending.head? ≠ some 42 ∧ limits.maxInlineLen < pending.length ∧ ¬ CRLF <:+: pending ∧
    CRLF <:+: pending ++ rest

/-- At no cut the line at the front of the buffer is overtaken. -/
def Timely (limits : Limits) : List Bytes → Bytes → Prop
  | [], _ => True
  | c :: cs, buf =>
    ¬ Overtaken limits (drain (decodeCommand limits) (buf ++ c)).2 cs.flatten ∧
      Timely limits cs (drain (decodeCommand limits) (buf ++ c)).2

/-- The tokenizer complains about quotes only. -/
theorem splitFrom_error {token : Token} {line : Bytes} {e : ProtocolError}
    (h : splitFrom token line = .error e) : ∃ msg, e = .inlineSyntax msg := by
  have hmap : ∀ (x : Except ProtocolError (List Bytes)) (cur : Bytes),
      x.map (fun args => cur :: args) = .error e → x = .error e := by
    intro x cur hx
    cases x with
    | error e' => exact hx
    | ok args => cases hx
  have hclose : ∀ (cur rest : Bytes) (x : Except ProtocolError (List Bytes)),
      (x = .error e → ∃ msg, e = .inlineSyntax msg) → closeQuote cur rest x = .error e →
        ∃ msg, e = .inlineSyntax msg := by
    intro cur rest x hx hc
    unfold closeQuote at hc
    split at hc
    · cases hc
      exact ⟨_, rfl⟩
    · exact hx (hmap x cur hc)
  -- Between bytes the recursion goes on; an error starts at the end or at a closing quote.
  fun_induction splitFrom token line with
  | case1 => cases h
  | case6 => cases h
  | case7 cur b rest hspace ih => exact ih (hmap _ _ h)
  | case9 => exact ⟨_, (Except.error.inj h).symm⟩
  | case10 cur rest ih => exact hclose _ _ _ ih h
  | case14 => exact ⟨_, (Except.error.inj h).symm⟩
  | case16 => exact ⟨_, (Except.error.inj h).symm⟩
  | case17 cur rest ih => exact hclose _ _ _ ih h
  | _ => rename_i ih; exact ih h

/-- The two refusals are told apart by their texts. -/
theorem refusals_ne (n limit : ℕ) :
    s!"inline command of {n} bytes exceeds limit {limit}" ≠
      s!"inline command exceeds limit {limit} before end of line" := by
  intro h
  have hat := congrArg (fun s : String => s.toList[15]?) h
  simp only [String.toList_append] at hat
  cases hat

/-- An error on the bytes so far is the error on all bytes, unless the line is overtaken. -/
theorem parseCommand_error_append {pending rest : Bytes} {e : ProtocolError}
    (h : parseCommand limits pending = .error e) :
    parseCommand limits (pending ++ rest) = .error e ↔ ¬ Overtaken limits pending rest := by
  have hne : pending ≠ [] := by
    rintro rfl
    cases h
  have hhead : (pending ++ rest).head? = pending.head? := List.head?_append_of_ne_nil pending hne
  by_cases hstar : pending.head? = some 42
  · rw [parseCommand_multibulk hstar] at h
    rw [parseCommand_multibulk (hhead.trans hstar), settled_parseMultibulk.stable.error h rest]
    exact ⟨fun _ ho => ho.1 hstar, fun _ => rfl⟩
  have hne' : pending ++ rest ≠ [] := List.append_ne_nil_of_left_ne_nil hne rest
  rw [parseCommand_inline hne hstar] at h
  rw [parseCommand_inline hne' (hhead ▸ hstar)]
  by_cases hcrlf : CRLF <:+: pending
  · obtain ⟨line, stop, hline⟩ := exists_readLine hcrlf
    rw [parseInline_line hline] at h
    rw [parseInline_line (readLine_append hline rest), h]
    exact ⟨fun _ ho => ho.2.2.1 hcrlf, fun _ => rfl⟩
  rw [parseInline_open (readLine_eq_none_iff.mpr hcrlf)] at h
  split at h
  case isFalse => cases h
  case isTrue hlong =>
    cases h
    by_cases hmore : CRLF <:+: pending ++ rest
    · -- The whole line is there, and what is said of it is something else.
      obtain ⟨line, stop, hline⟩ := exists_readLine hmore
      rw [parseInline_line hline]
      refine ⟨fun hsame => ?_, fun ho => absurd ⟨hstar, hlong, hcrlf, hmore⟩ ho⟩
      split at hsame
      · exact absurd (ProtocolError.limitExceeded.inj (Except.error.inj hsame)) (refusals_ne _ _)
      · cases hsplit : splitInline line with
        | ok args =>
          rw [hsplit] at hsame
          cases hsame
        | error e =>
          obtain ⟨msg, rfl⟩ := splitFrom_error hsplit
          rw [hsplit] at hsame
          cases hsame
    · have hlong' : limits.maxInlineLen < (pending ++ rest).length := by
        rw [List.length_append]
        omega
      rw [parseInline_open (readLine_eq_none_iff.mpr hmore), if_pos hlong']
      exact ⟨fun _ ho => hmore ho.2.2.2, fun _ => rfl⟩

/-- After an error that stays, no later cut can be one that matters. -/
theorem timely_of_error {pending : Bytes} {e : ProtocolError} {cs : List Bytes}
    (he : parseCommand limits pending = .error e) (ho : ¬ Overtaken limits pending cs.flatten) :
    Timely limits cs pending := by
  induction cs generalizing pending with
  | nil => trivial
  | cons c cs ih =>
    rw [List.flatten_cons] at ho
    have hfirst : ¬ Overtaken limits pending c := by
      rintro ⟨hstar, hlong, hnone, hsome⟩
      refine ho ⟨hstar, hlong, hnone, ?_⟩
      rw [← List.append_assoc]
      exact hsome.trans (List.prefix_append _ _).isInfix
    have herror : parseCommand limits (pending ++ c) = .error e := (parseCommand_error_append he).mpr hfirst
    have hleft : (drain (decodeCommand limits) (pending ++ c)).2 = pending ++ c := by
      rw [decodeCommand, drain_stuck fun r hr => nomatch herror.symm.trans hr]
    have hnext : ¬ Overtaken limits (pending ++ c) cs.flatten := by
      rintro ⟨hstar, -, hnone, hsome⟩
      have hne : pending ≠ [] := by
        rintro rfl
        cases he
      have hnone' : ¬ CRLF <:+: pending := fun hp => hnone (hp.trans (List.prefix_append pending c).isInfix)
      rw [List.head?_append_of_ne_nil pending hne] at hstar
      rw [List.append_assoc] at hsome
      refine ho ⟨hstar, ?_, hnone', hsome⟩
      by_contra hshort
      rw [parseCommand_inline hne hstar, parseInline_open (readLine_eq_none_iff.mpr hnone'),
        if_neg hshort] at he
      cases he
    rw [Timely, hleft]
    exact ⟨hnext, ih herror hnext⟩

theorem unhurried_iff_timely (chunks : List Bytes) (buf : Bytes) :
    Unhurried (decodeCommand limits) chunks buf ↔ Timely limits chunks buf := by
  induction chunks generalizing buf with
  | nil => exact Iff.rfl
  | cons c cs ih =>
    rw [Unhurried, Timely]
    set pending := (drain (decodeCommand limits) (buf ++ c)).2
    cases hf : failure (decodeCommand limits) pending with
    | some e =>
      have he : parseCommand limits pending = .error e := failure_eq_some.mp hf
      have hiff : _ ↔ ¬ Overtaken limits pending cs.flatten := parseCommand_error_append he
      dsimp only
      rw [decodeCommand, failure_eq_some, hiff]
      exact ⟨fun ho => ⟨ho, timely_of_error he ho⟩, And.left⟩
    | none =>
      have hopen : ¬ Overtaken limits pending cs.flatten := by
        rintro ⟨hstar, hlong, hnone, -⟩
        have hne : pending ≠ [] := List.ne_nil_of_length_pos (Nat.zero_lt_of_lt hlong)
        have he : parseCommand limits pending = _ := parseCommand_inline hne hstar
        rw [parseInline_open (readLine_eq_none_iff.mpr hnone), if_pos hlong] at he
        rw [decodeCommand, failure_eq_some.mpr he] at hf
        cases hf
      dsimp only
      rw [ih]
      exact ⟨fun h => ⟨hopen, h⟩, And.right⟩

/-- Requests cut into chunks are decoded as the whole stream is exactly when no cut
falls into an inline line past the limit: after the first `max_inline_len` bytes of the
line and before the end of its CRLF. -/
theorem requests_fragments_iff (limits : Limits) (chunks : List Bytes) :
    feed (decodeCommand limits) chunks [] = deliver (decodeCommand limits) chunks.flatten ↔
      Timely limits chunks [] := by
  rw [← unhurried_iff_timely]
  exact feed_eq_deliver_iff keepsItems_parseCommand advances_parseCommand chunks rfl

/-- A line of exactly the limit, cut between CR and LF: the whole stream is one request,
the chunks are an error. -/
theorem requests_fragments_limit :
    ¬ ∀ (limits : Limits) (chunks : List Bytes),
      feed (decodeCommand limits) chunks [] = deliver (decodeCommand limits) chunks.flatten := by
  intro h
  have hping := h { Limits.default with maxInlineLen := 4 } [utf8 "PING\r", utf8 "\n"]
  revert hping
  decide

end Requests

end GameStore
