import GameStore.Lib.Delimited
import GameStore.Lib.Stream
import GameStore.Frame

/-!
# The incremental decoder (`decode.rs`)

Positions are offsets into the whole buffer. `Parsed` is the source's type of that
name: a value with the position after it, `none` when bytes are missing, or an error.
-/

namespace GameStore

open Lib

inductive ProtocolError
  | malformed (msg : String)
  | limitExceeded (msg : String)
  | inlineSyntax (msg : String)
  deriving DecidableEq, Repr

structure Limits where
  maxBulkLen : ℕ
  maxArrayLen : ℕ
  maxInlineLen : ℕ
  maxDepth : ℕ
  deriving Repr

def Limits.default : Limits where
  maxBulkLen := 512 * 1024 * 1024
  maxArrayLen := 1024 * 1024
  maxInlineLen := 64 * 1024
  maxDepth := 128

abbrev Result (α : Type) := Parsed ProtocolError α

/-! ## Lines and integers -/

/-- The line from `start` to the next CRLF and the position after that. -/
def readLine (input : Bytes) (start : ℕ) : Result Bytes :=
  if input.length < start then .ok none
  else .ok ((findPair 13 10 (input.drop start)).map fun i => (slice input start (start + i), start + i + 2))

def strFrom (bytes : Bytes) : Except ProtocolError String :=
  match String.fromUTF8? ⟨bytes.toArray⟩ with
  | some s => .ok s
  | none => .error (.malformed "invalid UTF-8 in text line")

/-- The digits of `str::parse`: at least one, all decimal. -/
def digitsFrom (cs : List Char) : Option ℕ :=
  if cs ≠ [] ∧ cs.all Char.isDigit then some (Nat.ofDigitChars 10 cs 0) else none

/-- `str::parse::<i64>`: an optional sign, digits, and a value in range. -/
def i64FromStr (s : String) : Option Int64 :=
  let signed : Option ℤ := match s.toList with
    | '-' :: cs => (digitsFrom cs).map fun n : ℕ => -(n : ℤ)
    | '+' :: cs => (digitsFrom cs).map fun n : ℕ => (n : ℤ)
    | cs => (digitsFrom cs).map fun n : ℕ => (n : ℤ)
  signed.bind fun n => if -2 ^ 63 ≤ n ∧ n < 2 ^ 63 then some (Int64.ofInt n) else none

def intFrom (s : String) : Except ProtocolError Int64 :=
  match i64FromStr s with
  | some n => .ok n
  | none => .error (.malformed s!"invalid integer '{s}'")

def parseI64 (bytes : Bytes) : Except ProtocolError Int64 := (strFrom bytes).bind intFrom

/-- A value computed from a line, with the position after the line. -/
def fromLine {α : Type} (f : Bytes → Except ProtocolError α) (input : Bytes) (start : ℕ) : Result α :=
  (readLine input start).bind fun line next => (f line).map fun a => some (a, next)

/-- The byte at `start` says how to go on after it. -/
def byteThen {α : Type} (go : UInt8 → Bytes → ℕ → Result α) (input : Bytes) (start : ℕ) : Result α :=
  match input[start]? with
  | none => .ok none
  | some b => go b input (start + 1)

/-- A length or count: the integer of a header line. -/
def parseHeader (input : Bytes) (start : ℕ) : Result ℤ :=
  fromLine (fun line => (parseI64 line).map Int64.toInt) input start

/-- `len` bytes and the CRLF after them. -/
def readPayload (input : Bytes) (start len : ℕ) (unterminated : String) : Result Bytes :=
  let stop := start + len
  if input.length < stop + 2 then .ok none
  else if slice input stop (stop + 2) ≠ CRLF then .error (.malformed unterminated)
  else .ok (some (slice input start stop, stop + 2))

/-! ## Scalars -/

def textLine (make : String → Frame) : Bytes → ℕ → Result Frame :=
  fromLine fun line => (strFrom line).map make

def parseInteger : Bytes → ℕ → Result Frame :=
  fromLine fun line => (parseI64 line).map .integer

def parseNull : Bytes → ℕ → Result Frame :=
  fromLine fun line =>
    if line ≠ [] then .error (.malformed "null (_) must have empty body") else .ok .null

def parseBoolean : Bytes → ℕ → Result Frame :=
  fromLine fun line =>
    if line = utf8 "t" then .ok (.boolean true)
    else if line = utf8 "f" then .ok (.boolean false)
    else .error (.malformed "boolean must be #t or #f")

def doubleFrom (ft : FloatText) (s : String) : Except ProtocolError F64 :=
  if s = "inf" ∨ s = "+inf" then .ok F64.INFINITY
  else if s = "-inf" then .ok F64.NEG_INFINITY
  else if s = "nan" ∨ s = "-nan" then .ok F64.NAN
  else match ft.parse s with
    | some d => .ok d
    | none => .error (.malformed s!"invalid double '{s}'")

def parseDouble (ft : FloatText) : Bytes → ℕ → Result Frame :=
  fromLine fun line => (strFrom line).bind fun s => (doubleFrom ft s).map .double

/-! ## Payloads -/

def parseBulk (limits : Limits) (isError : Bool) (input : Bytes) (start : ℕ) : Result Frame :=
  (parseHeader input start).bind fun len afterHdr =>
    if len = -1 ∧ !isError then .ok (some (.null, afterHdr))
    else if len < 0 then .error (.malformed s!"negative bulk length {len}")
    else if limits.maxBulkLen < len.toNat then
      .error (.limitExceeded s!"bulk length {len} exceeds limit {limits.maxBulkLen}")
    else (readPayload input afterHdr len.toNat "bulk not terminated by CRLF").bind fun payload next =>
      if isError then (strFrom payload).map fun s => some (.bulkError s, next)
      else .ok (some (.bulk payload, next))

def parseVerbatim (limits : Limits) (input : Bytes) (start : ℕ) : Result Frame :=
  (parseHeader input start).bind fun len afterHdr =>
    if len < 4 then
      .error (.malformed "verbatim string too short (need 3-byte format + ':')")
    else if limits.maxBulkLen < len.toNat then
      .error (.limitExceeded s!"verbatim length {len} exceeds limit {limits.maxBulkLen}")
    else (readPayload input afterHdr len.toNat "verbatim not terminated by CRLF").bind fun body next =>
      match body with
      | a :: b :: c :: colon :: data =>
        if colon ≠ 58 then .error (.malformed "verbatim format not followed by ':'")
        else .ok (some (.verbatim (a, b, c) data, next))
      -- A body of four bytes or more does not get here.
      | _ => .error (.malformed "verbatim format not followed by ':'")

/-! ## Aggregates -/

inductive Aggregate
  | array
  | set
  | push
  deriving DecidableEq

def Aggregate.frame : Aggregate → List Frame → Frame
  | array => .array
  | set => .set
  | push => .push

/-- `count` values one after the other. -/
def parseItems {α : Type} (parse : Bytes → ℕ → Result α) (input : Bytes) : ℕ → ℕ → Result (List α)
  | 0, pos => .ok (some ([], pos))
  | count + 1, pos =>
    (parse input pos).bind fun item next =>
      (parseItems parse input count next).bind fun items stop => .ok (some (item :: items, stop))

/-- A key and its value. -/
def parsePair (parse : Bytes → ℕ → Result Frame) (input : Bytes) (pos : ℕ) : Result (Frame × Frame) :=
  (parse input pos).bind fun key next =>
    (parse input next).bind fun val stop => .ok (some ((key, val), stop))

def parseAggregate (limits : Limits) (parse : Bytes → ℕ → Result Frame) (kind : Aggregate)
    (input : Bytes) (start : ℕ) : Result Frame :=
  (parseHeader input start).bind fun count pos =>
    if count = -1 then
      if kind = .array then .ok (some (.null, pos)) else .error (.malformed "negative aggregate length")
    else if count < 0 then .error (.malformed "negative aggregate length")
    else if limits.maxArrayLen < count.toNat then
      .error (.limitExceeded s!"aggregate length {count} exceeds limit {limits.maxArrayLen}")
    else (parseItems parse input count.toNat pos).bind fun items stop =>
      .ok (some (kind.frame items, stop))

def parseMap (limits : Limits) (parse : Bytes → ℕ → Result Frame) (input : Bytes) (start : ℕ) :
    Result Frame :=
  (parseHeader input start).bind fun count pos =>
    if count < 0 then .error (.malformed "negative map length")
    else if limits.maxArrayLen < count.toNat then
      .error (.limitExceeded s!"map length {count} exceeds limit {limits.maxArrayLen}")
    else (parseItems (parsePair parse) input count.toNat pos).bind fun pairs stop =>
      .ok (some (.map pairs, stop))

/-! ## Frames -/

def hexDigit (n : ℕ) : Char := Nat.digitChar n

/-- A byte as `{:02x}`. -/
def hex2 (b : UInt8) : String := String.ofList [hexDigit (b.toNat / 16), hexDigit (b.toNat % 16)]

/-- What follows the type byte; `parse` reads the elements of an aggregate. -/
def parseBody (ft : FloatText) (limits : Limits) (parse : Bytes → ℕ → Result Frame) (typeByte : UInt8) :
    Bytes → ℕ → Result Frame :=
  match typeByte with
  | 43 => textLine .simple
  | 45 => textLine .error
  | 40 => textLine .bigNumber
  | 58 => parseInteger
  | 95 => parseNull
  | 35 => parseBoolean
  | 44 => parseDouble ft
  | 36 => parseBulk limits false
  | 33 => parseBulk limits true
  | 61 => parseVerbatim limits
  | 42 => parseAggregate limits parse .array
  | 126 => parseAggregate limits parse .set
  | 62 => parseAggregate limits parse .push
  | 37 => parseMap limits parse
  | other => fun _ _ => .error (.malformed s!"unknown RESP type byte 0x{hex2 other}")

/-- The first argument counts the levels still allowed: at depth `d` it is
`max_depth + 1 - d`, so that it is `0` when `depth > max_depth`. -/
def parseFrame (ft : FloatText) (limits : Limits) : ℕ → Bytes → ℕ → Result Frame
  | 0, _, _ => .error (.malformed s!"nesting deeper than {limits.maxDepth} levels")
  | levels + 1, input, start => byteThen (parseBody ft limits (parseFrame ft limits levels)) input start

/-- One value from the front of the buffer, and the buffer after it. -/
def decode (ft : FloatText) (limits : Limits) : Bytes → Polled UInt8 ProtocolError Frame :=
  advance fun buf => parseFrame ft limits (limits.maxDepth + 1) buf 0

end GameStore
