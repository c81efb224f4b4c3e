import GameStore.Text

/-!
# RESP values and their encoding (`frame.rs`, `encode.rs`)
-/

namespace GameStore

inductive RespVersion
  | v2
  | v3
  deriving DecidableEq, Repr

inductive Frame
  | simple (s : String)
  | error (s : String)
  | integer (n : Int64)
  | bulk (b : Bytes)
  | array (items : List Frame)
  | null
  | boolean (b : Bool)
  | double (d : F64)
  | bigNumber (s : String)
  | bulkError (s : String)
  /-- Three bytes of format and the payload after them. -/
  | verbatim (format : UInt8 × UInt8 × UInt8) (data : Bytes)
  | map (pairs : List (Frame × Frame))
  | set (items : List Frame)
  | push (items : List Frame)

/-! ## Doubles -/

namespace F64

def INFINITY : F64 := ⟨0x7FF0000000000000⟩
def NEG_INFINITY : F64 := ⟨0xFFF0000000000000⟩
def NAN : F64 := ⟨0x7FF8000000000000⟩

def isInfinite (x : F64) : Bool := x.magnitude = 0x7FF0000000000000

def isFinite (x : F64) : Bool := x.magnitude < 0x7FF0000000000000

end F64

/-- How the Rust library writes a finite `f64` (`{d}`) and reads one (`str::parse`). -/
structure FloatText where
  display : F64 → String
  parse : String → Option F64

/-- What is relied on: a finite number is written with digits, a sign and a point,
and reading inverts writing. -/
structure FloatText.Lawful (ft : FloatText) : Prop where
  plain : ∀ d, d.isFinite → ∀ c ∈ (ft.display d).toList, c.isDigit ∨ c = '-' ∨ c = '.'
  parse_display : ∀ d, d.isFinite → ft.parse (ft.display d) = some d

/-! ## The encoder -/

def putInt (n : ℤ) : Bytes := utf8 (toString n)

/-- A length is cast to `i64`, which is exact: no Rust buffer has `2^63` bytes. -/
def putLen (n : ℕ) : Bytes := putInt n

def putDouble (ft : FloatText) (d : F64) : Bytes :=
  if d.isNaN then utf8 "nan"
  else if d.isInfinite then utf8 (if d.negative then "-inf" else "inf")
  else utf8 (ft.display d)

section Encode

variable (ft : FloatText) (version : RespVersion)

mutual

def encode : Frame → Bytes
  | .simple s => 43 :: (utf8 s ++ CRLF)
  | .error s => 45 :: (utf8 s ++ CRLF)
  | .integer n => 58 :: (putInt n.toInt ++ CRLF)
  | .bulk b => 36 :: (putLen b.length ++ CRLF ++ b ++ CRLF)
  | .null => match version with
    | .v2 => utf8 "$-1" ++ CRLF
    | .v3 => utf8 "_" ++ CRLF
  | .array items => 42 :: (putLen items.length ++ CRLF ++ encodeItems items)
  | .boolean b => utf8 (if b then "#t" else "#f") ++ CRLF
  | .double d => 44 :: (putDouble ft d ++ CRLF)
  | .bigNumber s => 40 :: (utf8 s ++ CRLF)
  | .bulkError s => 33 :: (putLen (utf8 s).length ++ CRLF ++ utf8 s ++ CRLF)
  | .verbatim format data =>
    61 :: (putLen (3 + 1 + data.length) ++ CRLF ++
      [format.1, format.2.1, format.2.2, 58] ++ data ++ CRLF)
  | .map pairs => 37 :: (putLen pairs.length ++ CRLF ++ encodePairs pairs)
  | .set items => 126 :: (putLen items.length ++ CRLF ++ encodeItems items)
  | .push items => 62 :: (putLen items.length ++ CRLF ++ encodeItems items)

def encodeItems : List Frame → Bytes
  | [] => []
  | item :: items => encode item ++ encodeItems items

def encodePairs : List (Frame × Frame) → Bytes
  | [] => []
  | (k, v) :: pairs => encode k ++ encode v ++ encodePairs pairs

end

end Encode

end GameStore
