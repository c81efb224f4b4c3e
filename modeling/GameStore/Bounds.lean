import GameStore.Lib.Checked
import GameStore.DecodeLimits
import GameStore.Quoting

/-!
# Indices, slices and additions of the decoders

The decoders once more, with every index, slice and addition of lengths as the source has
them, each of which could panic, and with loops that could run forever. Under the bound on
the buffer none of this happens, and what comes out is what `decode` and `decodeCommand`
say.
-/

namespace GameStore

open Lib

namespace Checked

/-- Go on with a value and the position after it. -/
def andThen {α β : Type} (x : Option (Result α)) (f : α → ℕ → Option (Result β)) : Option (Result β) :=
  match x with
  | none => none
  | some (.error e) => some (.error e)
  | some (.ok none) => some (.ok none)
  | some (.ok (some (a, next))) => f a next

/-! ## Lines and payloads -/

/-- One round of the search for CRLF. -/
def readLineStep (input : Bytes) (start i : ℕ) : Option (ℕ ⊕ Result Bytes) := do
  let next ← wordAdd i 1
  if next < input.length then
    let b ← checkedGet input i
    let found ← (if b = 13 then (checkedGet input next).map fun c => decide (c = 10) else pure false)
    if found then
      let line ← checkedSlice input start i
      let stop ← wordAdd i 2
      pure (.inr (.ok (some (line, stop))))
    else pure (.inl next)
  else pure (.inr (.ok none))

def readLine (input : Bytes) (start : ℕ) : Option (Result Bytes) :=
  if input.length < start then some (.ok none)
  else whileLoop (readLineStep input start) (input.length + 1) start

def fromLine {α : Type} (f : Bytes → Except ProtocolError α) (input : Bytes) (start : ℕ) : Option (Result α) :=
  andThen (readLine input start) fun line next => some ((f line).map fun a => some (a, next))

def parseHeader (input : Bytes) (start : ℕ) : Option (Result ℤ) :=
  fromLine (fun line => (parseI64 line).map Int64.toInt) input start

def readPayload (input : Bytes) (start len : ℕ) (unterminated : String) : Option (Result Bytes) := do
  let stop ← wordAdd start len
  let next ← wordAdd stop 2
  if input.length < next then pure (.ok none)
  else
    let tail ← checkedSlice input stop next
    if tail ≠ CRLF then pure (.error (.malformed unterminated))
    else
      let payload ← checkedSlice input start stop
      pure (.ok (some (payload, next)))

/-! ## Frames -/

def parseBulk (limits : Limits) (isError : Bool) (input : Bytes) (start : ℕ) : Option (Result Frame) :=
  andThen (parseHeader input start) fun len afterHdr =>
    if len = -1 ∧ !isError then some (.ok (some (.null, afterHdr)))
    else if len < 0 then some (.error (.malformed s!"negative bulk length {len}"))
    else if limits.maxBulkLen < len.toNat then
      some (.error (.limitExceeded s!"bulk length {len} exceeds limit {limits.maxBulkLen}"))
    else andThen (readPayload input afterHdr len.toNat "bulk not terminated by CRLF") fun payload next =>
      some (if isError then (strFrom payload).map fun s => some (.bulkError s, next)
        else .ok (some (.bulk payload, next)))

def parseVerbatim (limits : Limits) (input : Bytes) (start : ℕ) : Option (Result Frame) :=
  andThen (parseHeader input start) fun len afterHdr =>
    if len < 4 then some (.error (.malformed "verbatim string too short (need 3-byte format + ':')"))
    else if limits.maxBulkLen < len.toNat then
      some (.error (.limitExceeded s!"verbatim length {len} exceeds limit {limits.maxBulkLen}"))
    else andThen (readPayload input afterHdr len.toNat "verbatim not terminated by CRLF") fun body next => do
      let colon ← checkedGet body 3
      if colon ≠ 58 then pure (.error (.malformed "verbatim format not followed by ':'"))
      else
        let a ← checkedGet body 0
        let b ← checkedGet body 1
        let c ← checkedGet body 2
        let data ← checkedSlice body 4 body.length
        pure (.ok (some (.verbatim (a, b, c) data, next)))

def parseItems {α : Type} (parse : Bytes → ℕ → Option (Result α)) (input : Bytes) :
    ℕ → ℕ → Option (Result (List α))
  | 0, pos => some (.ok (some ([], pos)))
  | count + 1, pos =>
    andThen (parse input pos) fun item next =>
      andThen (parseItems parse input count next) fun items stop => some (.ok (some (item :: items, stop)))

def parsePair (parse : Bytes → ℕ → Option (Result Frame)) (input : Bytes) (pos : ℕ) :
    Option (Result (Frame × Frame)) :=
  andThen (parse input pos) fun key next =>
    andThen (parse input next) fun val stop => some (.ok (some ((key, val), stop)))

def parseAggregate (limits : Limits) (parse : Bytes → ℕ → Option (Result Frame)) (kind : Aggregate)
    (input : Bytes) (start : ℕ) : Option (Result Frame) :=
  andThen (parseHeader input start) fun count pos =>
    if count = -1 then
      some (if kind = .array then .ok (some (.null, pos)) else .error (.malformed "negative aggregate length"))
    else if count < 0 then some (.error (.malformed "negative aggregate length"))
    else if limits.maxArrayLen < count.toNat then
      some (.error (.limitExceeded s!"aggregate length {count} exceeds limit {limits.maxArrayLen}"))
    else andThen (parseItems parse input count.toNat pos) fun items stop =>
      some (.ok (some (kind.frame items, stop)))

def parseMap (limits : Limits) (parse : Bytes → ℕ → Option (Result Frame)) (input : Bytes) (start : ℕ) :
    Option (Result Frame) :=
  andThen (parseHeader input start) fun count pos =>
    if count < 0 then some (.error (.malformed "negative map length"))
    else if limits.maxArrayLen < count.toNat then
      some (.error (.limitExceeded s!"map length {count} exceeds limit {limits.maxArrayLen}"))
    else andThen (parseItems (parsePair parse) input count.toNat pos) fun pairs stop =>
      some (.ok (some (.map pairs, stop)))

def parseBody (ft : FloatText) (limits : Limits) (parse : Bytes → ℕ → Option (Result Frame))
    (typeByte : UInt8) : Bytes → ℕ → Option (Result Frame) :=
  match typeByte with
  | 43 => fromLine fun line => (strFrom line).map .simple
  | 45 => fromLine fun line => (strFrom line).map .error
  | 40 => fromLine fun line => (strFrom line).map .bigNumber
  | 58 => fromLine fun line => (parseI64 line).map .integer
  | 95 => fromLine fun line =>
    if line ≠ [] then .error (.malformed "null (_) must have empty body") else .ok .null
  | 35 => fromLine fun line =>
    if line = utf8 "t" then .ok (.boolean true)
    else if line = utf8 "f" then .ok (.boolean false)
    else .error (.malformed "boolean must be #t or #f")
  | 44 => fromLine fun line => (strFrom line).bind fun s => (doubleFrom ft s).map .double
  | 36 => parseBulk limits false
  | 33 => parseBulk limits true
  | 61 => parseVerbatim limits
  | 42 => parseAggregate limits parse .array
  | 126 => parseAggregate limits parse .set
  | 62 => parseAggregate limits parse .push
  | 37 => parseMap limits parse
  | other => fun _ _ => some (.error (.malformed s!"unknown RESP type byte 0x{hex2 other}"))

/-- The first argument is the fuel for nested calls, the second the depth. -/
def parseFrame (ft : FloatText) (limits : Limits) : ℕ → ℕ → Bytes → ℕ → Option (Result Frame)
  | 0, _, _, _ => none
  | fuel + 1, depth, input, start =>
    if limits.maxDepth < depth then
      some (.error (.malformed s!"nesting deeper than {limits.maxDepth} levels"))
    else if input.length ≤ start then some (.ok none)
    else do
      let typeByte ← checkedGet input start
      let body ← wordAdd start 1
      let nested := fun input pos => do
        let deeper ← wordAdd depth 1
        parseFrame ft limits fuel deeper input pos
      parseBody ft limits nested typeByte input body

/-- `split_to` panics past the end of the buffer. -/
def splitTo (buf : Bytes) (n : ℕ) : Option Bytes := if n ≤ buf.length then some (buf.drop n) else none

/-- What a parser found is taken off the buffer. -/
def take {α : Type} (buf : Bytes) (parsed : Option (Result α)) : Option (Polled UInt8 ProtocolError α) :=
  match parsed with
  | none => none
  | some (.error e) => some (.error e, buf)
  | some (.ok none) => some (.ok none, buf)
  | some (.ok (some (a, next))) => (splitTo buf next).map fun rest => (.ok (some a), rest)

def decode (ft : FloatText) (limits : Limits) (buf : Bytes) : Option (Polled UInt8 ProtocolError Frame) :=
  take buf (parseFrame ft limits (limits.maxDepth + 2) 0 buf 0)

/-! ## Requests -/

def parseArg (limits : Limits) (input : Bytes) (pos : ℕ) : Option (Result Bytes) :=
  if input.length ≤ pos then some (.ok none)
  else do
    let b ← checkedGet input pos
    if b ≠ 36 then pure (.error (.malformed s!"expected '$' in multibulk, got 0x{hex2 b}"))
    else
      let start ← wordAdd pos 1
      andThen (parseHeader input start) fun len afterHdr =>
        if len < 0 then some (.error (.malformed "null bulk string not allowed in a request"))
        else if limits.maxBulkLen < len.toNat then
          some (.error (.limitExceeded s!"bulk length {len} exceeds limit {limits.maxBulkLen}"))
        else readPayload input afterHdr len.toNat "bulk not terminated by CRLF"

def parseMultibulk (limits : Limits) (input : Bytes) : Option (Result (List Bytes)) :=
  andThen (parseHeader input 1) fun count pos =>
    if count ≤ 0 then some (.ok (some ([], pos)))
    else if limits.maxArrayLen < count.toNat then
      some (.error (.limitExceeded s!"multibulk length {count} exceeds limit {limits.maxArrayLen}"))
    else parseItems (parseArg limits) input count.toNat pos

/-! ## The tokenizer -/

/-- One round of the loop over leading white space. -/
def skipStep (line : Bytes) (i : ℕ) : Option (ℕ ⊕ ℕ) :=
  if i < line.length then do
    let b ← checkedGet line i
    if isSpace b then (wordAdd i 1).map .inl else pure (.inr i)
  else pure (.inr i)

/-- The byte an escape stands for, and how many bytes it takes after the backslash. -/
def unescapeDouble (rest : Bytes) : Option (UInt8 × ℕ) := do
  let e ← checkedGet rest 0
  let hex ←
    (if e = 120 ∧ 3 ≤ rest.length then
      (checkedGet rest 1).bind fun hi => if isHex hi then (checkedGet rest 2).map isHex else pure false
    else pure false)
  if hex then
    let hi ← checkedGet rest 1
    let lo ← checkedGet rest 2
    pure (hexVal hi <<< 4 ||| hexVal lo, 3)
  else pure (unescape e, 1)

/-- A token read so far, and the position after it. -/
abbrev Cursor := ℕ × Bytes

/-- After a closing quote. -/
def afterQuote (line : Bytes) (i : ℕ) (cur : Bytes) : Option (Cursor ⊕ Except ProtocolError Cursor) := do
  let next ← wordAdd i 1
  let spaced ← (if next < line.length then (checkedGet line next).map isSpace else pure true)
  pure (.inr (if spaced then .ok (next, cur) else .error (.inlineSyntax "closing quote not followed by space")))

def doubleStep (line : Bytes) (c : Cursor) : Option (Cursor ⊕ Except ProtocolError Cursor) :=
  if line.length ≤ c.1 then pure (.inr (.error (.inlineSyntax "unbalanced double quotes")))
  else do
    let b ← checkedGet line c.1
    if b = 34 then afterQuote line c.1 c.2
    else
      let next ← wordAdd c.1 1
      if b = 92 ∧ next < line.length then
        let rest ← checkedSlice line next line.length
        let escape ← unescapeDouble rest
        let stop ← wordAdd next escape.2
        pure (.inl (stop, c.2 ++ [escape.1]))
      else pure (.inl (next, c.2 ++ [b]))

def singleStep (line : Bytes) (c : Cursor) : Option (Cursor ⊕ Except ProtocolError Cursor) :=
  if line.length ≤ c.1 then pure (.inr (.error (.inlineSyntax "unbalanced single quotes")))
  else do
    let b ← checkedGet line c.1
    if b = 39 then afterQuote line c.1 c.2
    else
      let next ← wordAdd c.1 1
      let quote ←
        (if b = 92 ∧ next < line.length then (checkedGet line next).map fun q => decide (q = 39) else pure false)
      if quote then
        let stop ← wordAdd c.1 2
        pure (.inl (stop, c.2 ++ [39]))
      else pure (.inl (next, c.2 ++ [b]))

def bareStep (line : Bytes) (c : Cursor) : Option (Cursor ⊕ Cursor) :=
  if c.1 < line.length then do
    let b ← checkedGet line c.1
    if isSpace b then pure (.inr c)
    else
      let next ← wordAdd c.1 1
      pure (.inl (next, c.2 ++ [b]))
  else pure (.inr c)

/-- One token, from its first byte on. -/
def readToken (line : Bytes) (i : ℕ) : Option (Except ProtocolError Cursor) := do
  let b ← checkedGet line i
  if b = 34 then
    let start ← wordAdd i 1
    whileLoop (doubleStep line) (line.length + 1) (start, [])
  else if b = 39 then
    let start ← wordAdd i 1
    whileLoop (singleStep line) (line.length + 1) (start, [])
  else (whileLoop (bareStep line) (line.length + 1) (i, [])).map .ok

/-- One round of the outer loop. -/
def splitStep (line : Bytes) (s : ℕ × List Bytes) :
    Option ((ℕ × List Bytes) ⊕ Except ProtocolError (List Bytes)) :=
  if s.1 < line.length then do
    let i ← whileLoop (skipStep line) (line.length + 1) s.1
    if line.length ≤ i then pure (.inr (.ok s.2))
    else
      let token ← readToken line i
      match token with
      | .error e => pure (.inr (.error e))
      | .ok (stop, cur) => pure (.inl (stop, s.2 ++ [cur]))
  else pure (.inr (.ok s.2))

def splitInline (line : Bytes) : Option (Except ProtocolError (List Bytes)) :=
  whileLoop (splitStep line) (line.length + 1) (0, [])

def parseInline (limits : Limits) (buf : Bytes) : Option (Result (List Bytes)) := do
  match ← readLine buf 0 with
  | .ok (some (line, consumed)) =>
    if limits.maxInlineLen < line.length then
      pure (.error (.limitExceeded
        s!"inline command of {line.length} bytes exceeds limit {limits.maxInlineLen}"))
    else
      let args ← splitInline line
      pure (args.map fun args => some (args, consumed))
  | .ok none =>
    if limits.maxInlineLen < buf.length then
      pure (.error (.limitExceeded
        s!"inline command exceeds limit {limits.maxInlineLen} before end of line"))
    else pure (.ok none)
  | .error e => pure (.error e)

def decodeCommand (limits : Limits) (buf : Bytes) : Option (Polled UInt8 ProtocolError (List Bytes)) :=
  if buf = [] then some (.ok none, buf)
  else do
    let b ← checkedGet buf 0
    if b = 42 then take buf (parseMultibulk limits buf) else take buf (parseInline limits buf)

/-! ## Nothing panics -/

theorem andThen_eq {α β : Type} {x : Option (Result α)} {r : Result α} {f : α → ℕ → Option (Result β)}
    {g : α → ℕ → Result β} (hx : x = some r)
    (h : ∀ a next, r = .ok (some (a, next)) → f a next = some (g a next)) : andThen x f = some (r.bind g) := by
  subst hx
  rcases r with e | _ | ⟨a, next⟩
  · rfl
  · rfl
  · exact h a next rfl

section Lines

variable {input : Bytes}

/-- The search from `i` on. -/
def lineFrom (input : Bytes) (start i : ℕ) : Result Bytes :=
  .ok ((findPair 13 10 (input.drop i)).map fun k => (slice input start (i + k), i + k + 2))

theorem lineFrom_found {start i : ℕ} (hi : i + 1 < input.length) (hcr : input[i] = 13) (hlf : input[i + 1] = 10) :
    lineFrom input start i = .ok (some (slice input start i, i + 2)) := by
  rw [lineFrom, List.drop_eq_getElem_cons (by omega), List.drop_eq_getElem_cons hi, hcr, hlf]
  rfl

theorem lineFrom_next {start i : ℕ} (hi : i < input.length) (h : ¬ (input[i] = 13 ∧ input[i + 1]? = some 10)) :
    lineFrom input start (i + 1) = lineFrom input start i := by
  have hhead : (input.drop (i + 1)).head? = input[i + 1]? := List.head?_drop
  rw [lineFrom, lineFrom, List.drop_eq_getElem_cons hi, findPair_cons, hhead, if_neg h, Option.map_map]
  congr 2
  funext k
  simp only [Function.comp_apply, Prod.mk.injEq]
  exact ⟨congrArg _ (by omega), by omega⟩

theorem readLineStep_spec (hlen : input.length + 2 < 2 ^ 64) {start i : ℕ} (hlo : start ≤ i)
    (hhi : i ≤ input.length) :
    readLineStep input start i = some (.inr (lineFrom input start i)) ∨
      ∃ i', readLineStep input start i = some (.inl i') ∧ (start ≤ i' ∧ i' ≤ input.length) ∧
        input.length - i' < input.length - i ∧ lineFrom input start i' = lineFrom input start i := by
  unfold readLineStep
  simp only [wordAdd_eq (show i + 1 < 2 ^ 64 by omega), Option.bind_eq_bind, Option.bind_some]
  by_cases hnext : i + 1 < input.length
  · simp only [if_pos hnext, checkedGet_eq hnext, checkedGet_eq (Nat.lt_of_succ_lt hnext), Option.bind_some]
    by_cases hcr : input[i] = 13
    · by_cases hlf : input[i + 1] = 10
      · left
        rw [lineFrom_found hnext hcr hlf]
        simp [hcr, hlf, checkedSlice_eq hlo hhi, wordAdd_eq (show i + 2 < 2 ^ 64 by omega), slice]
      · right
        refine ⟨i + 1, by simp [hcr, hlf], by omega, by omega, lineFrom_next (by omega) fun h => hlf ?_⟩
        exact Option.some.inj ((List.getElem?_eq_getElem hnext).symm.trans h.2)
    · right
      exact ⟨i + 1, by simp [hcr], by omega, by omega, lineFrom_next (by omega) fun h => hcr h.1⟩
  · left
    rw [if_neg hnext, lineFrom]
    -- The last byte is left, and a pair takes two.
    have hnone : findPair 13 10 (input.drop i) = none := by
      cases hf : findPair 13 10 (input.drop i) with
      | none => rfl
      | some k =>
        have := findPair_lt hf
        rw [List.length_drop] at this
        omega
    rw [hnone]
    rfl

theorem readLine_eq (hlen : input.length + 2 < 2 ^ 64) (start : ℕ) :
    readLine input start = some (GameStore.readLine input start) := by
  unfold readLine GameStore.readLine
  by_cases hstart : input.length < start
  · rw [if_pos hstart, if_pos hstart]
  · rw [if_neg hstart, if_neg hstart]
    have hstep : ∀ i, start ≤ i ∧ i ≤ input.length → _ := fun i hi => readLineStep_spec hlen hi.1 hi.2
    exact whileLoop_eq hstep ⟨le_rfl, by omega⟩ (by omega)

theorem fromLine_eq (hlen : input.length + 2 < 2 ^ 64) {α : Type} (f : Bytes → Except ProtocolError α) (start : ℕ) :
    fromLine f input start = some (GameStore.fromLine f input start) :=
  andThen_eq (readLine_eq hlen start) fun _ _ _ => rfl

theorem readPayload_eq {start len : ℕ} (hstart : start ≤ input.length) (hlen : input.length + len + 2 < 2 ^ 64)
    (msg : String) : readPayload input start len msg = some (GameStore.readPayload input start len msg) := by
  unfold readPayload GameStore.readPayload
  rw [wordAdd_eq (by omega), Option.bind_eq_bind, Option.bind_some, wordAdd_eq (by omega),
    Option.bind_eq_bind, Option.bind_some]
  dsimp only
  split
  · rfl
  · rw [checkedSlice_eq (by omega) (by omega), Option.bind_some]
    change (if slice input (start + len) (start + len + 2) ≠ CRLF then _ else _) = _
    split
    · rfl
    · rw [checkedSlice_eq (by omega) (by omega)]
      rfl

/-- What comes after a header lies in the buffer. -/
theorem header_within {start : ℕ} {n : ℤ} {pos : ℕ}
    (h : GameStore.parseHeader input start = .ok (some (n, pos))) : start < pos ∧ pos ≤ input.length := by
  obtain ⟨line, next, hline, hmap⟩ := Parsed.bind_eq_some.mp h
  dsimp only at hmap
  cases hn : (parseI64 line).map Int64.toInt with
  | error e =>
    rw [hn] at hmap
    cases hmap
  | ok n' =>
    rw [hn] at hmap
    cases hmap
    exact advances_readLine start input line pos hline

end Lines

/-- The bytes that announce a type. -/
def typeBytes : List UInt8 := [43, 45, 40, 58, 95, 35, 44, 36, 33, 61, 42, 126, 62, 37]

theorem parseBody_unknown (ft : FloatText) (limits : Limits) (parse : Bytes → ℕ → Option (Result Frame))
    {b : UInt8} (h : b ∉ typeBytes) :
    parseBody ft limits parse b = fun _ _ => some (.error (.malformed s!"unknown RESP type byte 0x{hex2 b}")) := by
  unfold parseBody
  split
  case h_15 => rfl
  all_goals exact absurd (by decide) h

/-- The same of the decoder that is total. -/
theorem parseBody_unknown_total (ft : FloatText) (limits : Limits) (parse : Bytes → ℕ → Result Frame)
    {b : UInt8} (h : b ∉ typeBytes) :
    GameStore.parseBody ft limits parse b =
      fun _ _ => .error (.malformed s!"unknown RESP type byte 0x{hex2 b}") := by
  unfold GameStore.parseBody
  split
  case h_15 => rfl
  all_goals exact absurd (by decide) h

section Frames

variable {input : Bytes} {limits : Limits} (hfit : input.length + limits.maxBulkLen + 2 < 2 ^ 64)

include hfit

theorem parseHeader_eq (start : ℕ) : parseHeader input start = some (GameStore.parseHeader input start) :=
  fromLine_eq (by omega) _ start

theorem parseBulk_eq (isError : Bool) (start : ℕ) :
    parseBulk limits isError input start = some (GameStore.parseBulk limits isError input start) := by
  refine andThen_eq (parseHeader_eq hfit start) fun len pos hheader => ?_
  have hpos := header_within hheader
  split
  · rfl
  · split
    · rfl
    · split
      · rfl
      · exact andThen_eq (readPayload_eq hpos.2 (by omega) _) fun payload next _ => rfl

theorem parseVerbatim_eq (start : ℕ) :
    parseVerbatim limits input start = some (GameStore.parseVerbatim limits input start) := by
  refine andThen_eq (parseHeader_eq hfit start) fun len pos hheader => ?_
  have hpos := header_within hheader
  split
  · rfl
  · split
    · rfl
    · refine andThen_eq (readPayload_eq hpos.2 (by omega) _) fun body next hbody => ?_
      have hlen : body.length = len.toNat := yields_readPayload input pos _ _ body next hbody
      rcases body with _ | ⟨a, _ | ⟨b, _ | ⟨c, _ | ⟨colon, data⟩⟩⟩⟩
      iterate 4
        · simp only [List.length_cons, List.length_nil] at hlen
          omega
      · by_cases hcolon : colon = 58
        · simp [checkedGet, checkedSlice, hcolon]
        · simp [checkedGet, hcolon]

section Nested

variable {q : Bytes → ℕ → Option (Result Frame)} {p : Bytes → ℕ → Result Frame} {lo : ℕ}
  (hq : ∀ pos, lo ≤ pos → pos ≤ input.length → q input pos = some (p input pos))
  (hp : ∀ pos, Settled pos fun b => p b pos)

omit hfit in
theorem parseItems_eq {α : Type} {q : Bytes → ℕ → Option (Result α)} {p : Bytes → ℕ → Result α} {lo : ℕ}
    (hq : ∀ pos, lo ≤ pos → pos ≤ input.length → q input pos = some (p input pos))
    (hp : ∀ pos, Settled pos fun b => p b pos) (count : ℕ) {pos : ℕ} (hlo : lo ≤ pos) (hhi : pos ≤ input.length) :
    parseItems q input count pos = some (GameStore.parseItems p input count pos) := by
  induction count generalizing pos with
  | zero => rfl
  | succ count ih =>
    refine andThen_eq (hq pos hlo hhi) fun item next hitem => ?_
    have hnext := (hp pos).within input item next hhi hitem
    exact andThen_eq (ih (by omega) hnext.2) fun _ _ _ => rfl

include hq hp

omit hfit in
theorem parsePair_eq {pos : ℕ} (hlo : lo ≤ pos) (hhi : pos ≤ input.length) :
    parsePair q input pos = some (GameStore.parsePair p input pos) := by
  refine andThen_eq (hq pos hlo hhi) fun key next hkey => ?_
  have hnext := (hp pos).within input key next hhi hkey
  exact andThen_eq (hq next (by omega) hnext.2) fun _ _ _ => rfl

theorem parseAggregate_eq (kind : Aggregate) {start : ℕ} (hlo : lo ≤ start) :
    parseAggregate limits q kind input start = some (GameStore.parseAggregate limits p kind input start) := by
  refine andThen_eq (parseHeader_eq hfit start) fun count pos hheader => ?_
  have hpos := header_within hheader
  split
  · rfl
  · split
    · rfl
    · split
      · rfl
      · exact andThen_eq (parseItems_eq hq hp count.toNat (by omega) hpos.2) fun _ _ _ => rfl

theorem parseMap_eq {start : ℕ} (hlo : lo ≤ start) :
    parseMap limits q input start = some (GameStore.parseMap limits p input start) := by
  refine andThen_eq (parseHeader_eq hfit start) fun count pos hheader => ?_
  have hpos := header_within hheader
  have hpairs := parseItems_eq (fun _ => parsePair_eq hq hp) (settled_parsePair hp) count.toNat
    (show lo ≤ pos by omega) hpos.2
  split
  · rfl
  · split
    · rfl
    · exact andThen_eq hpairs fun _ _ _ => rfl

theorem parseBody_eq (ft : FloatText) (typeByte : UInt8) {start : ℕ} (hlo : lo ≤ start) :
    parseBody ft limits q typeByte input start = some (GameStore.parseBody ft limits p typeByte input start) := by
  have hlen : input.length + 2 < 2 ^ 64 := by omega
  by_cases hknown : typeByte ∈ typeBytes
  · simp only [typeBytes, List.mem_cons, List.not_mem_nil, or_false] at hknown
    obtain rfl | rfl | rfl | rfl | rfl | rfl | rfl | rfl | rfl | rfl | rfl | rfl | rfl | rfl := hknown
    any_goals exact fromLine_eq hlen _ start
    · exact parseBulk_eq hfit false start
    · exact parseBulk_eq hfit true start
    · exact parseVerbatim_eq hfit start
    · exact parseAggregate_eq hfit hq hp .array hlo
    · exact parseAggregate_eq hfit hq hp .set hlo
    · exact parseAggregate_eq hfit hq hp .push hlo
    · exact parseMap_eq hfit hq hp hlo
  · rw [parseBody_unknown ft limits q hknown, parseBody_unknown_total ft limits p hknown]

end Nested

/-- A nested value starts after the bytes of the headers around it, so the depth is at most
the position. -/
theorem parseFrame_eq (ft : FloatText) {fuel depth start : ℕ} (hfuel : limits.maxDepth + 1 < depth + fuel)
    (hdepth : depth ≤ limits.maxDepth + 1) (hlo : depth ≤ start) (hhi : start ≤ input.length) :
    parseFrame ft limits fuel depth input start =
      some (GameStore.parseFrame ft limits (limits.maxDepth + 1 - depth) input start) := by
  induction fuel generalizing depth start with
  | zero => omega
  | succ fuel ih =>
    rw [parseFrame]
    by_cases hdeep : limits.maxDepth < depth
    · rw [if_pos hdeep, show limits.maxDepth + 1 - depth = 0 by omega]
      rfl
    · rw [if_neg hdeep, show limits.maxDepth + 1 - depth = limits.maxDepth - depth + 1 by omega,
        GameStore.parseFrame, byteThen]
      split
      · rename_i hend
        rw [List.getElem?_eq_none hend]
      · rename_i hstart
        rw [Nat.not_le] at hstart
        -- Inside, the depth is one more and so is the position at least.
        have hnested : ∀ pos, depth + 1 ≤ pos → pos ≤ input.length →
            (do
              let deeper ← wordAdd depth 1
              parseFrame ft limits fuel deeper input pos) =
            some (GameStore.parseFrame ft limits (limits.maxDepth - depth) input pos) := by
          intro pos hpos hle
          rw [wordAdd_eq (by omega), Option.bind_eq_bind, Option.bind_some,
            ih (by omega) (by omega) hpos hle]
          congr 2
          omega
        rw [checkedGet_eq hstart, wordAdd_eq (by omega), List.getElem?_eq_getElem hstart]
        exact parseBody_eq hfit hnested (settled_parseFrame ft limits _) ft _ (by omega)

theorem parseArg_eq (pos : ℕ) :
    parseArg limits input pos = some (GameStore.parseArg limits input pos) := by
  rw [parseArg, GameStore.parseArg, byteThen]
  split
  · rename_i hend
    rw [List.getElem?_eq_none hend]
  · rename_i hlt
    rw [Nat.not_le] at hlt
    rw [checkedGet_eq hlt, List.getElem?_eq_getElem hlt, Option.bind_eq_bind, Option.bind_some]
    dsimp only
    split
    · rfl
    · rw [wordAdd_eq (by omega), Option.bind_eq_bind, Option.bind_some]
      refine andThen_eq (parseHeader_eq hfit _) fun len afterHdr hheader => ?_
      have hafter := header_within hheader
      split
      · rfl
      · split
        · rfl
        · exact readPayload_eq hafter.2 (by omega) _

theorem parseMultibulk_eq : parseMultibulk limits input = some (GameStore.parseMultibulk limits input) := by
  refine andThen_eq (parseHeader_eq hfit 1) fun count pos hheader => ?_
  have hpos := header_within hheader
  split
  · rfl
  · split
    · rfl
    · exact parseItems_eq (fun pos _ _ => parseArg_eq hfit pos) settled_parseArg count.toNat (Nat.zero_le pos) hpos.2

end Frames

/-! ## The tokenizer does not panic -/

section Tokens

variable {text : Bytes} (hlen : text.length + 2 < 2 ^ 64)

/-- Where the white space at `i` ends. -/
def spaceEnd (text : Bytes) (i : ℕ) : ℕ := i + ((text.drop i).takeWhile isSpace).length

/-- The bytes from `i` to the next white space, after those in `c`. -/
def bareToken (text : Bytes) (c : Cursor) : Cursor :=
  let bytes := (text.drop c.1).takeWhile fun b => !isSpace b
  (c.1 + bytes.length, c.2 ++ bytes)

include hlen

theorem skipStep_spec (i : ℕ) (hi : i ≤ text.length) :
    skipStep text i = some (.inr (spaceEnd text i)) ∨
      ∃ i', skipStep text i = some (.inl i') ∧ i' ≤ text.length ∧ text.length - i' < text.length - i ∧
        spaceEnd text i' = spaceEnd text i := by
  unfold skipStep spaceEnd
  by_cases hlt : i < text.length
  · rw [if_pos hlt, checkedGet_eq hlt, List.drop_eq_getElem_cons hlt, Option.bind_eq_bind, Option.bind_some]
    by_cases hspace : isSpace text[i] = true
    · right
      rw [if_pos hspace, wordAdd_eq (by omega), List.takeWhile_cons_of_pos hspace, List.length_cons]
      exact ⟨i + 1, rfl, hlt, by omega, by omega⟩
    · left
      rw [if_neg hspace, List.takeWhile_cons_of_neg hspace]
      rfl
  · left
    rw [if_neg hlt, List.drop_eq_nil_of_le (by omega)]
    rfl

theorem bareStep_spec (c : Cursor) (hc : c.1 ≤ text.length) :
    bareStep text c = some (.inr (bareToken text c)) ∨
      ∃ c', bareStep text c = some (.inl c') ∧ c'.1 ≤ text.length ∧ text.length - c'.1 < text.length - c.1 ∧
        bareToken text c' = bareToken text c := by
  obtain ⟨i, cur⟩ := c
  dsimp only at hc
  unfold bareStep bareToken
  dsimp only
  by_cases hlt : i < text.length
  · rw [if_pos hlt, checkedGet_eq hlt, List.drop_eq_getElem_cons hlt, Option.bind_eq_bind, Option.bind_some]
    by_cases hspace : isSpace text[i] = true
    · left
      rw [if_pos hspace, List.takeWhile_cons_of_neg (by simp [hspace])]
      simp
    · right
      rw [if_neg hspace, wordAdd_eq (by omega), List.takeWhile_cons_of_pos (by simp [hspace]), List.length_cons]
      refine ⟨(i + 1, cur ++ [text[i]]), rfl, hlt, by dsimp only; omega, Prod.ext (by dsimp only; omega) ?_⟩
      simp
  · left
    rw [if_neg hlt, List.drop_eq_nil_of_le (by omega)]
    simp

omit hlen in
/-- An escape is read as `splitFrom` reads it. -/
theorem unescapeDouble_spec {rest : Bytes} (hne : rest ≠ []) (cur : Bytes) :
    ∃ byte adv, unescapeDouble rest = some (byte, adv) ∧ 1 ≤ adv ∧ adv ≤ rest.length ∧
      splitFrom (.double cur) (92 :: rest) = splitFrom (.double (cur ++ [byte])) (rest.drop adv) := by
  obtain ⟨e, rest, rfl⟩ := List.exists_cons_of_ne_nil hne
  by_cases hx : ∃ hi lo rest', e = 120 ∧ rest = hi :: lo :: rest'
  · obtain ⟨hi, lo, rest, rfl, rfl⟩ := hx
    -- Without two hexadecimal digits the `x` is an ordinary byte.
    by_cases hhex : isHex hi = true ∧ isHex lo = true
    · refine ⟨hexVal hi <<< 4 ||| hexVal lo, 3, ?_, by omega, by simp, ?_⟩
      · simp [unescapeDouble, checkedGet, hhex.1, hhex.2]
      · simp [splitFrom, hhex.1, hhex.2]
    · refine ⟨120, 1, ?_, by omega, by simp, ?_⟩
      · by_cases hhi : isHex hi = true
        · have hlo : isHex lo = false := by simpa [hhi] using hhex
          simp [unescapeDouble, checkedGet, hlo, unescape]
        · simp [unescapeDouble, checkedGet, hhi, unescape]
      · rw [splitFrom, if_neg (by decide), if_pos rfl, if_neg (by simpa using hhex)]
        rfl
  · refine ⟨unescape e, 1, ?_, by omega, by simp, ?_⟩
    · have hshort : ¬ (e = 120 ∧ 3 ≤ (e :: rest).length) := by
        rintro ⟨he, hlen⟩
        rcases rest with _ | ⟨hi, _ | ⟨lo, rest⟩⟩
        · simp at hlen
        · simp at hlen
        · exact hx ⟨hi, lo, rest, he, rfl⟩
      rw [unescapeDouble, checkedGet_eq (Nat.succ_pos _), Option.bind_eq_bind, Option.bind_some,
        List.getElem_cons_zero, if_neg hshort]
      rfl
    · rw [splitFrom, if_neg (by decide), if_pos rfl]
      · rfl
      · exact fun hi lo rest' he hrest => hx ⟨hi, lo, rest', he, hrest⟩

/-- Go on after a token. -/
def resume (text : Bytes) : Except ProtocolError Cursor → Except ProtocolError (List Bytes)
  | .error e => .error e
  | .ok c => (splitFrom .gap (text.drop c.1)).map fun args => c.2 :: args

/-- A token that was read from the state `token` at `i` on. -/
def Outcome (text : Bytes) (token : Token) (i : ℕ) (out : Except ProtocolError Cursor) : Prop :=
  splitFrom token (text.drop i) = resume text out ∧ ∀ c, out = .ok c → i ≤ c.1 ∧ c.1 ≤ text.length

omit hlen in
/-- The outcome from a later place on. -/
theorem Outcome.back {token token' : Token} {i i' : ℕ} {out : Except ProtocolError Cursor} (hi : i ≤ i')
    (h : splitFrom token (text.drop i) = splitFrom token' (text.drop i')) (hout : Outcome text token' i' out) :
    Outcome text token i out := by
  refine ⟨h.trans hout.1, fun c hc => ?_⟩
  have := hout.2 c hc
  omega

theorem afterQuote_spec {token : Token} {i : ℕ} {cur : Bytes} (hi : i < text.length)
    (h : splitFrom token (text.drop i) = closeQuote cur (text.drop (i + 1)) (splitFrom .gap (text.drop (i + 1)))) :
    ∃ out, afterQuote text i cur = some (.inr out) ∧ Outcome text token i out := by
  -- The byte after the quote is what `closeQuote` looks at.
  have hspaced : (if i + 1 < text.length then (checkedGet text (i + 1)).map isSpace else pure true) =
      some ((text.drop (i + 1)).head?.all isSpace) := by
    rw [List.head?_drop]
    by_cases hnext : i + 1 < text.length
    · rw [if_pos hnext, checkedGet_eq hnext, List.getElem?_eq_getElem hnext]
      rfl
    · rw [if_neg hnext, List.getElem?_eq_none (by omega)]
      rfl
  refine ⟨if (text.drop (i + 1)).head?.all isSpace then .ok (i + 1, cur)
    else .error (.inlineSyntax "closing quote not followed by space"), ?_, h.trans ?_, fun c hc => ?_⟩
  · rw [afterQuote, wordAdd_eq (by omega), Option.bind_eq_bind, Option.bind_some, hspaced]
    rfl
  · rw [closeQuote]
    cases hhead : (text.drop (i + 1)).head? with
    | none => rfl
    | some b =>
      cases hb : isSpace b <;> simp [hb, resume]
  · split at hc
    · cases hc
      exact ⟨by dsimp only; omega, hi⟩
    · cases hc

theorem doubleStep_spec (c : Cursor) (hc : c.1 ≤ text.length) :
    (∃ out, doubleStep text c = some (.inr out) ∧ Outcome text (.double c.2) c.1 out) ∨
      ∃ c', doubleStep text c = some (.inl c') ∧ c'.1 ≤ text.length ∧ text.length - c'.1 < text.length - c.1 ∧
        ∀ out, Outcome text (.double c'.2) c'.1 out → Outcome text (.double c.2) c.1 out := by
  obtain ⟨i, cur⟩ := c
  dsimp only at hc ⊢
  unfold doubleStep
  dsimp only
  by_cases hlt : i < text.length
  · rw [if_neg (by omega), checkedGet_eq hlt, Option.bind_eq_bind, Option.bind_some]
    have hdrop := List.drop_eq_getElem_cons hlt
    by_cases hquote : text[i] = 34
    · left
      rw [if_pos hquote]
      refine afterQuote_spec hlen hlt ?_
      rw [hdrop, hquote, splitFrom_double_close]
    · right
      rw [if_neg hquote, wordAdd_eq (by omega), Option.bind_eq_bind, Option.bind_some]
      by_cases hslash : text[i] = 92 ∧ i + 1 < text.length
      · have hne : text.drop (i + 1) ≠ [] := by
          rw [Ne, List.drop_eq_nil_iff]
          omega
        obtain ⟨byte, adv, hescape, hpos, hadv, hsplit⟩ := unescapeDouble_spec hne cur
        rw [List.length_drop] at hadv
        refine ⟨(i + 1 + adv, cur ++ [byte]), ?_, by dsimp only; omega, by dsimp only; omega, fun out => ?_⟩
        · rw [if_pos hslash, checkedSlice_eq (by omega) le_rfl, List.take_length, Option.bind_eq_bind,
            Option.bind_some, hescape, Option.bind_eq_bind, Option.bind_some,
            wordAdd_eq (show i + 1 + adv < 2 ^ 64 by omega)]
          rfl
        · refine Outcome.back (by dsimp only; omega) ?_
          rw [hdrop, hslash.1, hsplit, List.drop_drop]
      · rw [if_neg hslash]
        refine ⟨(i + 1, cur ++ [text[i]]), rfl, hlt, by dsimp only; omega, fun out => ?_⟩
        refine Outcome.back (by dsimp only; omega) ?_
        rw [hdrop]
        by_cases hb : text[i] = 92
        · -- The backslash is the last byte.
          have hend : ¬ i + 1 < text.length := fun hnext => hslash ⟨hb, hnext⟩
          have hlast : text.drop (i + 1) = [] := List.drop_eq_nil_of_le (by omega)
          dsimp only
          rw [hlast, hb]
          rfl
        · exact splitFrom_double_byte cur _ hquote hb
  · left
    rw [if_pos (by omega)]
    refine ⟨_, rfl, ?_, fun c hc => by cases hc⟩
    rw [List.drop_eq_nil_of_le (by omega)]
    rfl

theorem singleStep_spec (c : Cursor) (hc : c.1 ≤ text.length) :
    (∃ out, singleStep text c = some (.inr out) ∧ Outcome text (.single c.2) c.1 out) ∨
      ∃ c', singleStep text c = some (.inl c') ∧ c'.1 ≤ text.length ∧ text.length - c'.1 < text.length - c.1 ∧
        ∀ out, Outcome text (.single c'.2) c'.1 out → Outcome text (.single c.2) c.1 out := by
  obtain ⟨i, cur⟩ := c
  dsimp only at hc ⊢
  unfold singleStep
  dsimp only
  by_cases hlt : i < text.length
  · rw [if_neg (by omega), checkedGet_eq hlt, Option.bind_eq_bind, Option.bind_some]
    have hdrop := List.drop_eq_getElem_cons hlt
    by_cases hquote : text[i] = 39
    · left
      rw [if_pos hquote]
      refine afterQuote_spec hlen hlt ?_
      rw [hdrop, hquote, splitFrom_single_close]
    · right
      rw [if_neg hquote, wordAdd_eq (by omega), Option.bind_eq_bind, Option.bind_some]
      -- The source looks at the next byte after a backslash only.
      have hescaped : (if text[i] = 92 ∧ i + 1 < text.length then
            (checkedGet text (i + 1)).map fun q => decide (q = 39) else pure false) =
          some (decide (text[i] = 92 ∧ text[i + 1]? = some 39)) := by
        by_cases hnext : i + 1 < text.length
        · rw [checkedGet_eq hnext, List.getElem?_eq_getElem hnext]
          by_cases hb : text[i] = 92 <;> simp [hb, hnext]
        · rw [if_neg fun h => hnext h.2, List.getElem?_eq_none (by omega)]
          simp
      rw [hescaped, Option.bind_eq_bind, Option.bind_some]
      by_cases hslash : text[i] = 92 ∧ text[i + 1]? = some 39
      · obtain ⟨hb, hnext⟩ := hslash
        obtain ⟨hlt', hq⟩ := List.getElem?_eq_some_iff.mp hnext
        refine ⟨(i + 2, cur ++ [39]), ?_, hlt', by dsimp only; omega, fun out => ?_⟩
        · rw [if_pos (by simp [hb, hnext]), wordAdd_eq (by omega)]
          rfl
        · refine Outcome.back (by dsimp only; omega) ?_
          rw [hdrop, hb, List.drop_eq_getElem_cons hlt', hq]
          exact splitFrom_single_quote cur _
      · refine ⟨(i + 1, cur ++ [text[i]]), ?_, hlt, by dsimp only; omega, fun out => ?_⟩
        · rw [if_neg (by simpa using hslash)]
          rfl
        · refine Outcome.back (by dsimp only; omega) ?_
          rw [hdrop]
          refine splitFrom_single_byte cur _ hquote fun hb => ?_
          rw [List.head?_drop]
          exact fun hq => hslash ⟨hb, hq⟩
  · left
    rw [if_pos (by omega)]
    refine ⟨_, rfl, ?_, fun c hc => by cases hc⟩
    rw [List.drop_eq_nil_of_le (by omega)]
    rfl

omit hlen in
theorem splitFrom_bare (cur l : Bytes) :
    splitFrom (.bare cur) l =
      (splitFrom .gap (l.dropWhile fun b => !isSpace b)).map fun args =>
        (cur ++ l.takeWhile fun b => !isSpace b) :: args := by
  induction l generalizing cur with
  | nil => simp [splitFrom, Except.map]
  | cons b l ih =>
    rw [splitFrom]
    by_cases hb : isSpace b = true
    · rw [if_pos hb, List.dropWhile_cons_of_neg (by simp [hb]), List.takeWhile_cons_of_neg (by simp [hb]),
        splitFrom_space l hb, List.append_nil]
    · rw [if_neg hb, ih, List.dropWhile_cons_of_pos (by simp [hb]), List.takeWhile_cons_of_pos (by simp [hb]),
        List.append_assoc, List.singleton_append]

omit hlen in
theorem drop_takeWhile (p : UInt8 → Bool) (i : ℕ) :
    text.drop (i + ((text.drop i).takeWhile p).length) = (text.drop i).dropWhile p := by
  rw [← List.drop_drop]
  conv_lhs =>
    arg 2
    rw [← List.takeWhile_append_dropWhile (p := p) (l := text.drop i)]
  exact List.drop_left

/-- A token from its first byte on, and progress. -/
theorem readToken_spec {i : ℕ} (hi : i < text.length) (hspace : isSpace text[i] = false) :
    ∃ out, readToken text i = some out ∧ splitFrom .gap (text.drop i) = resume text out ∧
      ∀ c, out = .ok c → i < c.1 ∧ c.1 ≤ text.length := by
  have hdrop := List.drop_eq_getElem_cons hi
  have hgap : splitFrom .gap (text.drop i) =
      if text[i] = 34 then splitFrom (.double []) (text.drop (i + 1))
      else if text[i] = 39 then splitFrom (.single []) (text.drop (i + 1))
      else splitFrom (.bare [text[i]]) (text.drop (i + 1)) := by
    rw [hdrop, splitFrom, if_neg (by simp [hspace])]
  unfold readToken
  rw [checkedGet_eq hi, hgap, Option.bind_eq_bind, Option.bind_some]
  by_cases hdouble : text[i] = 34
  · rw [if_pos hdouble, if_pos hdouble, wordAdd_eq (by omega), Option.bind_eq_bind, Option.bind_some]
    obtain ⟨out, hout, hsplit, hpos⟩ := whileLoop_spec (doubleStep_spec hlen) (s := (i + 1, [])) hi
      (show text.length - (i + 1) < text.length + 1 by omega)
    exact ⟨out, hout, hsplit, hpos⟩
  · rw [if_neg hdouble, if_neg hdouble]
    by_cases hsingle : text[i] = 39
    · rw [if_pos hsingle, if_pos hsingle, wordAdd_eq (by omega), Option.bind_eq_bind, Option.bind_some]
      obtain ⟨out, hout, hsplit, hpos⟩ := whileLoop_spec (singleStep_spec hlen) (s := (i + 1, [])) hi
        (show text.length - (i + 1) < text.length + 1 by omega)
      exact ⟨out, hout, hsplit, hpos⟩
    · rw [if_neg hsingle, if_neg hsingle]
      -- A bare token has no error, so its loop is known in full.
      have hloop := whileLoop_eq (bareStep_spec hlen) (s := (i, [])) hi.le
        (show text.length - i < text.length + 1 by omega)
      have htake : (text.drop i).takeWhile (fun b => !isSpace b) =
          text[i] :: (text.drop (i + 1)).takeWhile fun b => !isSpace b := by
        rw [hdrop, List.takeWhile_cons_of_pos (by simp [hspace])]
      refine ⟨.ok (bareToken text (i, [])), by rw [hloop]; rfl, ?_, fun c hc => ?_⟩
      · rw [resume, bareToken]
        dsimp only
        rw [drop_takeWhile, htake, hdrop, List.dropWhile_cons_of_pos (by simp [hspace]), splitFrom_bare,
          List.nil_append, List.singleton_append]
      · obtain rfl : bareToken text (i, []) = c := Except.ok.inj hc
        have hle : ((text.drop i).takeWhile fun b => !isSpace b).length ≤ (text.drop i).length :=
          (List.takeWhile_prefix _).length_le
        rw [List.length_drop] at hle
        rw [bareToken]
        dsimp only
        rw [htake] at hle ⊢
        rw [List.length_cons] at hle ⊢
        omega

/-- What the outer loop has left to say from a state on. -/
def splitRest (text : Bytes) (s : ℕ × List Bytes) : Except ProtocolError (List Bytes) :=
  (splitFrom .gap (text.drop s.1)).map fun args => s.2 ++ args

theorem splitStep_spec (s : ℕ × List Bytes) (hs : s.1 ≤ text.length) :
    splitStep text s = some (.inr (splitRest text s)) ∨
      ∃ s', splitStep text s = some (.inl s') ∧ s'.1 ≤ text.length ∧ text.length - s'.1 < text.length - s.1 ∧
        splitRest text s' = splitRest text s := by
  obtain ⟨i, args⟩ := s
  dsimp only at hs
  unfold splitStep splitRest
  dsimp only
  by_cases hlt : i < text.length
  · have hskip := whileLoop_eq (skipStep_spec hlen) hs (show text.length - i < text.length + 1 by omega)
    rw [if_pos hlt, hskip, Option.bind_eq_bind, Option.bind_some]
    -- Blanks make no difference to what follows.
    have hgap : splitFrom .gap (text.drop (spaceEnd text i)) = splitFrom .gap (text.drop i) := by
      conv_rhs => rw [← List.takeWhile_append_dropWhile (p := isSpace) (l := text.drop i)]
      rw [spaceEnd, drop_takeWhile, splitFrom_blanks fun b hb => List.mem_takeWhile_imp hb]
    by_cases hend : text.length ≤ spaceEnd text i
    · left
      rw [if_pos hend, ← hgap, List.drop_eq_nil_of_le hend, splitFrom]
      simp [Except.map]
    · rw [Nat.not_le] at hend
      have hge : i ≤ spaceEnd text i := Nat.le_add_right _ _
      have hspace : isSpace text[spaceEnd text i] = false := by
        have hstop := List.head?_dropWhile_not isSpace (text.drop i)
        rw [← drop_takeWhile, List.head?_drop, ← spaceEnd, List.getElem?_eq_getElem hend] at hstop
        simpa using hstop
      obtain ⟨out, hout, hsplit, hpos⟩ := readToken_spec hlen hend hspace
      rw [if_neg (by omega), hout, Option.bind_eq_bind, Option.bind_some, ← hgap, hsplit]
      cases out with
      | error e => exact .inl rfl
      | ok c =>
        obtain ⟨hadv, hle⟩ := hpos c rfl
        refine .inr ⟨(c.1, args ++ [c.2]), rfl, hle, by dsimp only; omega, ?_⟩
        rw [resume]
        dsimp only
        cases splitFrom .gap (text.drop c.1) with
        | error e => rfl
        | ok rest => simp [Except.map]
  · left
    rw [if_neg hlt, List.drop_eq_nil_of_le (by omega), splitFrom]
    simp [Except.map]

theorem splitInline_eq : splitInline text = some (GameStore.splitInline text) := by
  have hloop := whileLoop_eq (splitStep_spec hlen) (s := (0, [])) (Nat.zero_le _)
    (show text.length - 0 < text.length + 1 by omega)
  rw [splitInline, hloop, splitRest, GameStore.splitInline, List.drop_zero]
  cases splitFrom .gap text with
  | error e => rfl
  | ok args => rfl

end Tokens

/-! ## The two decoders -/

theorem parseInline_eq {limits : Limits} {buf : Bytes} (hlen : buf.length + 2 < 2 ^ 64) :
    parseInline limits buf = some (GameStore.parseInline limits buf) := by
  rw [parseInline, readLine_eq hlen, GameStore.parseInline]
  rcases hline : GameStore.readLine buf 0 with e | _ | ⟨line, next⟩
  · rfl
  · simp only [Option.bind_eq_bind, Option.bind_some]
    split
    · rfl
    · rfl
  · have hshort : line.length ≤ buf.length := by
      rw [readLine_zero] at hline
      obtain ⟨k, -, hk⟩ := Option.map_eq_some_iff.mp (Except.ok.inj hline)
      obtain rfl : slice buf 0 (0 + k) = line := congrArg Prod.fst hk
      rw [slice, List.length_drop, List.length_take]
      omega
    simp only [Option.bind_eq_bind, Option.bind_some]
    split
    · rfl
    · rw [splitInline_eq (by omega), Option.bind_some]
      rfl

theorem take_eq {α : Type} {p : Bytes → Result α} {buf : Bytes} {x : Option (Result α)} (hx : x = some (p buf))
    (hadv : Advances 0 p) : take buf x = some (advance p buf) := by
  subst hx
  rcases hp : p buf with e | _ | ⟨a, next⟩
  · rw [advance_error hp]
    rfl
  · rw [advance_none hp]
    rfl
  · rw [advance_some hp, take, splitTo, if_pos (hadv buf a next hp).2]
    rfl

theorem decode_eq (ft : FloatText) {limits : Limits} {buf : Bytes}
    (hfit : buf.length + limits.maxBulkLen + 2 < 2 ^ 64) :
    decode ft limits buf = some (GameStore.decode ft limits buf) :=
  take_eq (parseFrame_eq hfit ft (by omega) (Nat.zero_le _) le_rfl (Nat.zero_le _))
    (advances_parseFrame ft limits (limits.maxDepth + 1) 0)

theorem decodeCommand_eq {limits : Limits} {buf : Bytes}
    (hfit : buf.length + limits.maxBulkLen + 2 < 2 ^ 64) :
    decodeCommand limits buf = some (GameStore.decodeCommand limits buf) := by
  cases buf with
  | nil => rfl
  | cons b rest =>
    rw [decodeCommand, if_neg (List.cons_ne_nil b rest), checkedGet_eq (Nat.succ_pos _), Option.bind_eq_bind,
      Option.bind_some, List.getElem_cons_zero, GameStore.decodeCommand]
    split
    · rename_i hstar
      have hhead : (b :: rest).head? = some 42 := congrArg some hstar
      refine take_eq ?_ advances_parseCommand
      rw [parseMultibulk_eq hfit, parseCommand_multibulk hhead]
    · rename_i hstar
      refine take_eq ?_ advances_parseCommand
      rw [parseInline_eq (by omega), parseCommand_inline (List.cons_ne_nil b rest) fun h => hstar (Option.some.inj h)]

end Checked

/-- An item takes a part of the buffer, and otherwise the buffer is what it was. -/
def Takes {α : Type} (buf : Bytes) : Polled UInt8 ProtocolError α → Prop
  | (.ok (some _), rest) => ∃ n, 1 ≤ n ∧ n ≤ buf.length ∧ rest = buf.drop n
  | (.ok none, rest) => rest = buf
  | (.error _, rest) => rest = buf

theorem takes_advance {α : Type} {p : Bytes → Result α} (hadv : Advances 0 p) (buf : Bytes) :
    Takes buf (advance p buf) := by
  rcases hp : p buf with e | _ | ⟨a, next⟩
  · rw [advance_error hp]
    rfl
  · rw [advance_none hp]
    rfl
  · rw [advance_some hp]
    have := hadv buf a next hp
    exact ⟨next, by omega, this.2, rfl⟩

/-- The decoders are safe: on every buffer that fits the machine word together with the limit
on payloads, they end without an index or a slice outside of the buffer and without an
overflow, with the result of `decode` and `decodeCommand`; an item takes between one byte
and all bytes off the buffer, and otherwise nothing is taken. -/
theorem decoders_safe (ft : FloatText) {limits : Limits} {buf : Bytes}
    (hfit : buf.length + limits.maxBulkLen + 2 < 2 ^ 64) :
    (∃ r, Checked.decode ft limits buf = some r ∧ r = decode ft limits buf ∧ Takes buf r) ∧
      ∃ r, Checked.decodeCommand limits buf = some r ∧ r = decodeCommand limits buf ∧ Takes buf r := by
  refine ⟨⟨_, Checked.decode_eq ft hfit, rfl, ?_⟩, _, Checked.decodeCommand_eq hfit, rfl, ?_⟩
  · exact takes_advance (advances_parseFrame ft limits (limits.maxDepth + 1) 0) buf
  · exact takes_advance advances_parseCommand buf

/-- A request of two bulks, with the start of another one after it. -/
def twoBulks : Bytes := utf8 "*2\r\n$3\r\nGET\r\n$1\r\nk\r\n*1\r\n"

theorem decode_twoBulks : decode FloatText.quarter Limits.default twoBulks =
    (.ok (some (.array [.bulk (utf8 "GET"), .bulk (utf8 "k")])), utf8 "*1\r\n") := by
  with_unfolding_all rfl

theorem decoders_safe_twoBulks : twoBulks.length + Limits.default.maxBulkLen + 2 < 2 ^ 64 ∧
    Checked.decode FloatText.quarter Limits.default twoBulks =
      some (.ok (some (.array [.bulk (utf8 "GET"), .bulk (utf8 "k")])), utf8 "*1\r\n") ∧
    Checked.decodeCommand Limits.default twoBulks =
      some (.ok (some [utf8 "GET", utf8 "k"]), utf8 "*1\r\n") := by
  have hfit : twoBulks.length + Limits.default.maxBulkLen + 2 < 2 ^ 64 := by decide +kernel
  have hcommand : decodeCommand Limits.default twoBulks = (.ok (some [utf8 "GET", utf8 "k"]), utf8 "*1\r\n") := by
    decide +kernel
  obtain ⟨⟨r, hr, rfl, -⟩, r', hr', rfl, -⟩ := decoders_safe FloatText.quarter hfit
  exact ⟨hfit, hr.trans (congrArg some decode_twoBulks), hr'.trans (congrArg some hcommand)⟩

end GameStore
