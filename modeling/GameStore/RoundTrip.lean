import GameStore.Decode

/-!
# What is encoded is decoded

`Reads p e a` says that the parser `p` reads `a` off the bytes `e`, wherever they
stand in the buffer and whatever follows. It composes along `bind`, so the round
trip of a frame is put together from those of its lines, payloads and elements.
-/

namespace GameStore

open Lib

/-! ## Numbers as text -/

theorem strFrom_utf8 (s : String) : strFrom (utf8 s) = .ok s := by
  rw [strFrom, fromUTF8?_utf8]

theorem digitsFrom_toDigits (n : ℕ) : digitsFrom (Nat.toDigits 10 n) = some n := by
  have hall : (Nat.toDigits 10 n).all Char.isDigit := by
    rw [List.all_eq_true]
    exact fun c hc => Nat.isDigit_of_mem_toDigits (by decide) (by decide) hc
  rw [digitsFrom, if_pos ⟨Nat.toDigits_ne_nil, hall⟩, Nat.ofDigitChars_ten_toDigits]

theorem toDigits_eq_cons (n : ℕ) : ∃ c cs, Nat.toDigits 10 n = c :: cs ∧ c.isDigit := by
  obtain ⟨c, cs, h⟩ := List.exists_cons_of_ne_nil (Nat.toDigits_ne_nil (n := n) (b := 10))
  exact ⟨c, cs, h, Nat.isDigit_of_mem_toDigits (by decide) (by decide) (h ▸ List.mem_cons_self)⟩

theorem toList_toString_ofNat (n : ℕ) : (toString (n : ℤ)).toList = Nat.toDigits 10 n := by
  rw [← Nat.toList_repr]
  rfl

theorem toList_toString_negSucc (n : ℕ) :
    (toString (Int.negSucc n)).toList = '-' :: Nat.toDigits 10 (n + 1) := by
  have hrepr : toString (Int.negSucc n) = "-" ++ (n + 1).repr := rfl
  rw [hrepr, String.toList_append, Nat.toList_repr]
  rfl

theorem toString_int_digits (n : ℤ) : ∀ c ∈ (toString n).toList, c.isDigit ∨ c = '-' := by
  have hdigit : ∀ (m : ℕ), ∀ c ∈ Nat.toDigits 10 m, c.isDigit := fun m c hc =>
    Nat.isDigit_of_mem_toDigits (by decide) (by decide) hc
  intro c hc
  cases n with
  | ofNat m =>
    rw [Int.ofNat_eq_natCast, toList_toString_ofNat] at hc
    exact .inl (hdigit m c hc)
  | negSucc m =>
    rw [toList_toString_negSucc] at hc
    obtain rfl | hc := List.mem_cons.mp hc
    · exact .inr rfl
    · exact .inl (hdigit _ c hc)

theorem oneLine_toString (n : ℤ) : OneLine (toString n) := by
  apply oneLine_of_not_mem
  intro h
  obtain hd | hd := toString_int_digits n _ h
  · cases hd
  · cases hd

/-- `str::parse` inverts `{n}`. -/
theorem i64FromStr_toString {n : ℤ} (h : -2 ^ 63 ≤ n ∧ n < 2 ^ 63) :
    i64FromStr (toString n) = some (Int64.ofInt n) := by
  cases n with
  | ofNat m =>
    obtain ⟨c, cs, hcons, hc⟩ := toDigits_eq_cons m
    have hminus : c ≠ '-' := by rintro rfl; cases hc
    have hplus : c ≠ '+' := by rintro rfl; cases hc
    have hsigned : i64FromStr (toString (m : ℤ)) = ((digitsFrom (c :: cs)).map fun n : ℕ => (n : ℤ)).bind
        fun n => if -2 ^ 63 ≤ n ∧ n < 2 ^ 63 then some (Int64.ofInt n) else none := by
      rw [i64FromStr, toList_toString_ofNat, hcons]
      split <;> rename_i heq
      · exact absurd (List.head_eq_of_cons_eq heq) hminus
      · exact absurd (List.head_eq_of_cons_eq heq) hplus
      · rfl
    rw [Int.ofNat_eq_natCast, hsigned, ← hcons, digitsFrom_toDigits, Option.map_some, Option.bind_some]
    exact if_pos h
  | negSucc m =>
    have hsigned : i64FromStr (toString (Int.negSucc m)) =
        ((digitsFrom (Nat.toDigits 10 (m + 1))).map fun n : ℕ => -(n : ℤ)).bind
          fun n => if -2 ^ 63 ≤ n ∧ n < 2 ^ 63 then some (Int64.ofInt n) else none := by
      rw [i64FromStr, toList_toString_negSucc]
      rfl
    rw [hsigned, digitsFrom_toDigits, Option.map_some, Option.bind_some]
    exact if_pos h

theorem parseI64_putInt {n : ℤ} (h : -2 ^ 63 ≤ n ∧ n < 2 ^ 63) :
    parseI64 (putInt n) = .ok (Int64.ofInt n) := by
  rw [parseI64, putInt, strFrom_utf8]
  change intFrom (toString n) = _
  rw [intFrom, i64FromStr_toString h]

/-! ## Reading off -/

/-- The parser reads `a` off the bytes `e`, wherever they stand. -/
def Reads {α : Type} (p : Bytes → ℕ → Result α) (e : Bytes) (a : α) : Prop :=
  ∀ pre rest, p (pre ++ e ++ rest) pre.length = .ok (some (a, pre.length + e.length))

section Reads

variable {α β : Type} {e e' : Bytes} {a : α} {b : β}

theorem Reads.bind {p : Bytes → ℕ → Result α} {q : α → Bytes → ℕ → Result β} (hp : Reads p e a)
    (hq : Reads (q a) e' b) :
    Reads (fun input start => (p input start).bind fun a next => q a input next) (e ++ e') b := by
  intro pre rest
  have hassoc : pre ++ (e ++ e') ++ rest = pre ++ e ++ (e' ++ rest) := by simp
  have hp' := hp pre (e' ++ rest)
  have hq' := hq (pre ++ e) rest
  rw [List.append_assoc (pre ++ e), List.length_append] at hq'
  dsimp only
  rw [hassoc, hp', Parsed.bind_some, hq', List.length_append, Nat.add_assoc]

theorem Reads.pure (a : α) : Reads (fun _ start => .ok (some (a, start))) [] a := by
  intro pre rest
  rfl

/-- Go on with a value without reading further. -/
theorem Reads.map {p : Bytes → ℕ → Result α} (hp : Reads p e a) (f : α → β) :
    Reads (fun input start => (p input start).bind fun a next => .ok (some (f a, next))) e (f a) := by
  intro pre rest
  dsimp only
  rw [hp pre rest]
  rfl

theorem reads_readLine {line : Bytes} (h : ¬ CRLF <:+: line) : Reads readLine (line ++ CRLF) line := by
  intro pre rest
  have hstart : ¬ (pre ++ (line ++ CRLF) ++ rest).length < pre.length := by simp
  have hdrop : (pre ++ (line ++ CRLF) ++ rest).drop pre.length = line ++ 13 :: 10 :: rest := by
    rw [List.append_assoc, List.drop_left]
    simp [CRLF]
  have hslice : slice (pre ++ (line ++ CRLF) ++ rest) pre.length (pre.length + line.length) = line := by
    rw [List.append_assoc, List.append_assoc]
    exact slice_append_mid rfl rfl
  rw [readLine, if_neg hstart, hdrop, findPair_line (by decide) h, Option.map_some, hslice]
  simp [CRLF, Nat.add_assoc]

theorem reads_fromLine {f : Bytes → Except ProtocolError α} {line : Bytes} (h : ¬ CRLF <:+: line)
    (hf : f line = .ok a) : Reads (fromLine f) (line ++ CRLF) a := by
  intro pre rest
  rw [fromLine, reads_readLine h pre rest, Parsed.bind_some, hf]
  rfl

theorem reads_readPayload (b : Bytes) (msg : String) :
    Reads (fun input start => readPayload input start b.length msg) (b ++ CRLF) b := by
  intro pre rest
  have hlen : ¬ (pre ++ (b ++ CRLF) ++ rest).length < pre.length + b.length + 2 := by
    simp [CRLF]
    omega
  have hend : slice (pre ++ (b ++ CRLF) ++ rest) (pre.length + b.length) (pre.length + b.length + 2) =
      CRLF := by
    have hassoc : pre ++ (b ++ CRLF) ++ rest = (pre ++ b) ++ (CRLF ++ rest) := by simp
    rw [hassoc]
    exact slice_append_mid (by simp) (by simp [CRLF])
  have hbody : slice (pre ++ (b ++ CRLF) ++ rest) pre.length (pre.length + b.length) = b := by
    rw [List.append_assoc, List.append_assoc]
    exact slice_append_mid rfl rfl
  dsimp only [readPayload]
  rw [if_neg hlen, hend, if_neg (not_not.mpr rfl), hbody]
  simp [CRLF, Nat.add_assoc]

/-- The header of a payload or an aggregate. -/
theorem reads_parseHeader {n : ℤ} (h : -2 ^ 63 ≤ n ∧ n < 2 ^ 63) :
    Reads parseHeader (putInt n ++ CRLF) n := by
  apply reads_fromLine (oneLine_toString n)
  change (parseI64 (putInt n)).map Int64.toInt = .ok n
  rw [parseI64_putInt h]
  exact congrArg Except.ok (Int64.toInt_ofInt_of_le h.1 h.2)

theorem reads_parseItems {γ : Type} {parse : Bytes → ℕ → Result α} (enc : γ → Bytes) (val : γ → α)
    {items : List γ} (h : ∀ x ∈ items, Reads parse (enc x) (val x)) :
    Reads (fun input pos => parseItems parse input items.length pos) (items.flatMap enc)
      (items.map val) := by
  induction items with
  | nil => exact Reads.pure []
  | cons x items ih =>
    have hrest := ih fun y hy => h y (List.mem_cons_of_mem _ hy)
    exact (h x List.mem_cons_self).bind (hrest.map fun items => val x :: items)

end Reads

/-! ## Frame trees -/

def Frame.children : Frame → List Frame
  | .array items => items
  | .set items => items
  | .push items => items
  | .map pairs => pairs.flatMap fun p => [p.1, p.2]
  | _ => []

/-- A property of a frame and of all frames inside it. -/
inductive Frame.Everywhere (P : Frame → Prop) : Frame → Prop
  | intro {f : Frame} (here : P f) (below : ∀ g ∈ f.children, Frame.Everywhere P g) :
    Frame.Everywhere P f

/-- No frame inside stands more than so many levels deep. -/
inductive Frame.Nested : ℕ → Frame → Prop
  | leaf {n : ℕ} {f : Frame} (h : f.children = []) : Frame.Nested n f
  | node {n : ℕ} {f : Frame} (below : ∀ g ∈ f.children, Frame.Nested n g) : Frame.Nested (n + 1) f

/-- The texts that are sent as a line are lines. -/
def Frame.Lined : Frame → Prop
  | .simple s => OneLine s
  | .error s => OneLine s
  | .bigNumber s => OneLine s
  | _ => True

/-- A length within the limit. No Rust buffer has `2^63` elements, so that every
length has its `i64`. -/
def SizeWithin (limit n : ℕ) : Prop := n ≤ limit ∧ n < 2 ^ 63

/-- The payload or the element count is within the limits. -/
def Frame.Sized (limits : Limits) : Frame → Prop
  | .bulk b => SizeWithin limits.maxBulkLen b.length
  | .bulkError s => SizeWithin limits.maxBulkLen (utf8 s).length
  | .verbatim _ data => SizeWithin limits.maxBulkLen (3 + 1 + data.length)
  | .array items => SizeWithin limits.maxArrayLen items.length
  | .set items => SizeWithin limits.maxArrayLen items.length
  | .push items => SizeWithin limits.maxArrayLen items.length
  | .map pairs => SizeWithin limits.maxArrayLen pairs.length
  | _ => True

def Frame.NotNaN : Frame → Prop
  | .double d => d.isNaN = false
  | _ => True

mutual

/-- The frame with the one NaN that can be read off the wire. -/
def Frame.canon : Frame → Frame
  | .double d => .double (if d.isNaN then F64.NAN else d)
  | .array items => .array (canonItems items)
  | .set items => .set (canonItems items)
  | .push items => .push (canonItems items)
  | .map pairs => .map (canonPairs pairs)
  | f => f

def Frame.canonItems : List Frame → List Frame
  | [] => []
  | item :: items => item.canon :: canonItems items

def Frame.canonPairs : List (Frame × Frame) → List (Frame × Frame)
  | [] => []
  | (k, v) :: pairs => (k.canon, v.canon) :: canonPairs pairs

end

theorem Frame.canonItems_eq_map (items : List Frame) : Frame.canonItems items = items.map Frame.canon := by
  induction items with
  | nil => rfl
  | cons item items ih => rw [canonItems, ih, List.map_cons]

theorem Frame.canonPairs_eq_map (pairs : List (Frame × Frame)) :
    Frame.canonPairs pairs = pairs.map fun p => (p.1.canon, p.2.canon) := by
  induction pairs with
  | nil => rfl
  | cons p pairs ih => rw [canonPairs, ih, List.map_cons]

theorem Frame.Everywhere.leaf {P : Frame → Prop} {f : Frame} (h : P f) (hleaf : f.children = []) :
    f.Everywhere P :=
  ⟨h, fun _ hg => absurd (hleaf ▸ hg) List.not_mem_nil⟩

theorem Frame.mem_children_map {pairs : List (Frame × Frame)} {p : Frame × Frame} (hp : p ∈ pairs) :
    p.1 ∈ (Frame.map pairs).children ∧ p.2 ∈ (Frame.map pairs).children :=
  ⟨List.mem_flatMap.mpr ⟨p, hp, by simp⟩, List.mem_flatMap.mpr ⟨p, hp, by simp⟩⟩

theorem Frame.Everywhere.canon_eq {f : Frame} (h : f.Everywhere Frame.NotNaN) : f.canon = f := by
  induction h with
  | @intro f here below ih =>
    have hitems : ∀ items : List Frame, (∀ g ∈ items, g.canon = g) → Frame.canonItems items = items := by
      intro items hall
      rw [canonItems_eq_map]
      exact (List.map_congr_left hall).trans (List.map_id items)
    cases f with
    | double d => rw [canon, if_neg (ne_true_of_eq_false here)]
    | array items => rw [canon, hitems items ih]
    | set items => rw [canon, hitems items ih]
    | push items => rw [canon, hitems items ih]
    | map pairs =>
      rw [canon, canonPairs_eq_map]
      congr 1
      refine (List.map_congr_left fun p hp => ?_).trans (List.map_id pairs)
      rw [ih _ (mem_children_map hp).1, ih _ (mem_children_map hp).2]
      rfl
    | _ => simp only [canon]

/-! ## Frames -/

section Frames

variable (ft : FloatText) (version : RespVersion)

theorem encodeItems_eq_flatMap (items : List Frame) :
    encodeItems ft version items = items.flatMap (encode ft version) := by
  induction items with
  | nil => rw [encodeItems, List.flatMap_nil]
  | cons item items ih => rw [encodeItems, ih, List.flatMap_cons]

theorem encodePairs_eq_flatMap (pairs : List (Frame × Frame)) :
    encodePairs ft version pairs = pairs.flatMap fun p => encode ft version p.1 ++ encode ft version p.2 := by
  induction pairs with
  | nil => rw [encodePairs, List.flatMap_nil]
  | cons p pairs ih => rw [encodePairs, ih, List.flatMap_cons]

variable {ft} {limits : Limits} {levels : ℕ}

/-- The type byte decides which parser reads the rest. -/
theorem reads_parseFrame {t : UInt8} {e : Bytes} {f : Frame}
    (h : Reads (parseBody ft limits (parseFrame ft limits levels) t) e f) :
    Reads (parseFrame ft limits (levels + 1)) (t :: e) f := by
  intro pre rest
  have hassoc : pre ++ t :: e ++ rest = (pre ++ [t]) ++ e ++ rest := by simp
  have hat : (pre ++ t :: e ++ rest)[pre.length]? = some t := by simp
  have hread := h (pre ++ [t]) rest
  rw [parseFrame, byteThen, hat, hassoc]
  dsimp only
  rw [List.length_append, List.length_singleton] at hread
  rw [hread, List.length_cons]
  congr 3
  omega

theorem reads_textLine {make : String → Frame} {s : String} (h : OneLine s) :
    Reads (textLine make) (utf8 s ++ CRLF) (make s) := by
  apply reads_fromLine h
  rw [strFrom_utf8]
  rfl

theorem reads_parseInteger (n : Int64) : Reads parseInteger (putInt n.toInt ++ CRLF) (.integer n) := by
  have hrange : -2 ^ 63 ≤ n.toInt ∧ n.toInt < 2 ^ 63 := ⟨n.le_toInt, n.toInt_lt⟩
  apply reads_fromLine (oneLine_toString n.toInt)
  change (parseI64 (putInt n.toInt)).map Frame.integer = _
  rw [parseI64_putInt hrange, Int64.ofInt_toInt]
  rfl

theorem reads_parseNull : Reads parseNull ([] ++ CRLF) .null :=
  reads_fromLine (by simp [CRLF]) rfl

theorem reads_parseBoolean (b : Bool) :
    Reads parseBoolean (utf8 (if b then "t" else "f") ++ CRLF) (.boolean b) := by
  cases b with
  | true => exact reads_fromLine (by decide) (if_pos rfl)
  | false => exact reads_fromLine (by decide) ((if_neg (by decide)).trans (if_pos rfl))

/-- The three names that are not numbers have letters in them. -/
theorem FloatText.Lawful.display_ne (hft : ft.Lawful) {d : F64} (hd : d.isFinite) {s : String} {c : Char}
    (hc : c ∈ s.toList) (hletter : ¬ (c.isDigit ∨ c = '-' ∨ c = '.')) : ft.display d ≠ s := by
  rintro rfl
  exact hletter (hft.plain d hd c hc)

theorem oneLine_display (hft : ft.Lawful) {d : F64} (hd : d.isFinite) : OneLine (ft.display d) := by
  apply oneLine_of_not_mem
  intro h
  exact absurd (hft.plain d hd _ h) (by decide)

theorem doubleFrom_display (hft : ft.Lawful) {d : F64} (hd : d.isFinite) :
    doubleFrom ft (ft.display d) = .ok d := by
  have hi : ∀ s : String, 'i' ∈ s.toList → ft.display d ≠ s := fun s hs => hft.display_ne hd hs (by decide)
  have ha : ∀ s : String, 'a' ∈ s.toList → ft.display d ≠ s := fun s hs => hft.display_ne hd hs (by decide)
  rw [doubleFrom, if_neg (by simp [hi "inf" (by decide), hi "+inf" (by decide)]),
    if_neg (hi "-inf" (by decide)), if_neg (by simp [ha "nan" (by decide), ha "-nan" (by decide)]),
    hft.parse_display d hd]

theorem F64.isFinite_of_not {d : F64} (hnan : d.isNaN = false) (hinf : d.isInfinite = false) :
    d.isFinite := by
  unfold isNaN at hnan
  unfold isInfinite at hinf
  unfold isFinite
  simp only [decide_eq_false_iff_not, decide_eq_true_eq] at hnan hinf ⊢
  omega

theorem F64.eq_of_isInfinite {d y : F64} (h : d.isInfinite) (hy : y.isInfinite)
    (hsign : d.negative = y.negative) : d = y :=
  ext_magnitude hsign ((of_decide_eq_true h).trans (of_decide_eq_true hy).symm)

theorem reads_parseDouble (hft : ft.Lawful) (d : F64) :
    Reads (parseDouble ft) (putDouble ft d ++ CRLF) (.double (if d.isNaN then F64.NAN else d)) := by
  have hread : ∀ (s : String) (d' : F64), OneLine s → doubleFrom ft s = .ok d' →
      Reads (parseDouble ft) (utf8 s ++ CRLF) (.double d') := by
    intro s d' hs hd
    apply reads_fromLine hs
    rw [strFrom_utf8]
    change (doubleFrom ft s).map Frame.double = _
    rw [hd]
    rfl
  unfold putDouble
  split
  · exact hread _ _ (oneLine_of_not_mem (by decide)) rfl
  · rename_i hnan
    split
    · rename_i hinf
      cases hneg : d.negative with
      | true =>
        rw [F64.eq_of_isInfinite (y := F64.NEG_INFINITY) hinf (by decide) (hneg.trans (by decide))]
        exact hread "-inf" _ (oneLine_of_not_mem (by decide)) rfl
      | false =>
        rw [F64.eq_of_isInfinite (y := F64.INFINITY) hinf (by decide) (hneg.trans (by decide))]
        exact hread "inf" _ (oneLine_of_not_mem (by decide)) rfl
    · rename_i hinf
      have hfin := F64.isFinite_of_not (eq_false_of_ne_true hnan) (eq_false_of_ne_true hinf)
      exact hread _ _ (oneLine_display hft hfin) (doubleFrom_display hft hfin)

theorem SizeWithin.reads_parseHeader {limit n : ℕ} (h : SizeWithin limit n) :
    Reads parseHeader (putLen n ++ CRLF) (n : ℤ) :=
  GameStore.reads_parseHeader ⟨by omega, by exact_mod_cast h.2⟩

/-- The checks of a header are passed by a length within its limit. -/
theorem SizeWithin.not_lt {limit n : ℕ} (h : SizeWithin limit n) : ¬ limit < (n : ℤ).toNat := by
  rw [Int.toNat_natCast]
  exact Nat.not_lt.mpr h.1

theorem reads_parseBulk {b : Bytes} (h : SizeWithin limits.maxBulkLen b.length) (isError : Bool)
    {f : Frame} (hf : (if isError then (strFrom b).map Frame.bulkError else .ok (.bulk b)) = .ok f) :
    Reads (parseBulk limits isError) (putLen b.length ++ CRLF ++ (b ++ CRLF)) f := by
  refine Reads.bind h.reads_parseHeader ?_
  intro pre rest
  have hpayload := reads_readPayload b "bulk not terminated by CRLF" pre rest
  dsimp only at hpayload ⊢
  rw [if_neg (by omega), if_neg (by omega), if_neg h.not_lt, Int.toNat_natCast, hpayload,
    Parsed.bind_some]
  cases isError with
  | true =>
    cases hs : strFrom b with
    | error e =>
      rw [hs] at hf
      cases hf
    | ok s =>
      rw [hs] at hf
      cases hf
      rfl
  | false =>
    cases hf
    rfl

/-- The null of RESP2. -/
theorem reads_parseBulk_null : Reads (parseBulk limits false) (putInt (-1) ++ CRLF) .null := by
  intro pre rest
  rw [parseBulk, reads_parseHeader (n := -1) (by decide) pre rest, Parsed.bind_some]
  rfl

theorem reads_parseVerbatim {format : UInt8 × UInt8 × UInt8} {data : Bytes}
    (h : SizeWithin limits.maxBulkLen (3 + 1 + data.length)) :
    Reads (parseVerbatim limits) (putLen (3 + 1 + data.length) ++ CRLF ++
      ([format.1, format.2.1, format.2.2, 58] ++ data ++ CRLF)) (.verbatim format data) := by
  refine Reads.bind h.reads_parseHeader ?_
  intro pre rest
  have hlen : ([format.1, format.2.1, format.2.2, 58] ++ data).length = 3 + 1 + data.length := by
    simp
    omega
  have hpayload := reads_readPayload ([format.1, format.2.1, format.2.2, 58] ++ data)
    "verbatim not terminated by CRLF" pre rest
  dsimp only at hpayload ⊢
  rw [hlen] at hpayload
  rw [if_neg (by omega), if_neg h.not_lt, Int.toNat_natCast, hpayload, Parsed.bind_some]
  exact if_neg (by decide)

theorem reads_parseAggregate {parse : Bytes → ℕ → Result Frame} (kind : Aggregate) {items : List Frame}
    (h : SizeWithin limits.maxArrayLen items.length) (enc : Frame → Bytes) (val : Frame → Frame)
    (hitems : ∀ f ∈ items, Reads parse (enc f) (val f)) :
    Reads (parseAggregate limits parse kind) (putLen items.length ++ CRLF ++ items.flatMap enc)
      (kind.frame (items.map val)) := by
  refine Reads.bind h.reads_parseHeader ?_
  have hread := (reads_parseItems enc val hitems).map kind.frame
  intro pre rest
  dsimp only
  rw [if_neg (by omega), if_neg (by omega), if_neg h.not_lt, Int.toNat_natCast]
  exact hread pre rest

theorem reads_parseMap {parse : Bytes → ℕ → Result Frame} {pairs : List (Frame × Frame)}
    (h : SizeWithin limits.maxArrayLen pairs.length) (enc : Frame → Bytes) (val : Frame → Frame)
    (hpairs : ∀ p ∈ pairs, Reads parse (enc p.1) (val p.1) ∧ Reads parse (enc p.2) (val p.2)) :
    Reads (parseMap limits parse)
      (putLen pairs.length ++ CRLF ++ pairs.flatMap fun p => enc p.1 ++ enc p.2)
      (.map (pairs.map fun p => (val p.1, val p.2))) := by
  refine Reads.bind h.reads_parseHeader ?_
  have hpair : ∀ p ∈ pairs, Reads (parsePair parse) (enc p.1 ++ enc p.2) (val p.1, val p.2) :=
    fun p hp => (hpairs p hp).1.bind ((hpairs p hp).2.map fun v => (val p.1, v))
  have hread := (reads_parseItems _ _ hpair).map Frame.map
  intro pre rest
  dsimp only
  rw [if_neg (by omega), if_neg h.not_lt, Int.toNat_natCast]
  exact hread pre rest

/-- One level of a frame tree, given the levels below. -/
theorem reads_encode_of_children (hft : ft.Lawful) {f : Frame} (hline : f.Lined)
    (hsize : f.Sized limits)
    (hbelow : ∀ g ∈ f.children, Reads (parseFrame ft limits levels) (encode ft version g) g.canon) :
    Reads (parseFrame ft limits (levels + 1)) (encode ft version f) f.canon := by
  -- A leaf is read by its own parser; an aggregate by `hbelow`.
  cases f with
  | simple s =>
    simp only [encode, Frame.canon]
    exact reads_parseFrame (reads_textLine hline)
  | error s =>
    simp only [encode, Frame.canon]
    exact reads_parseFrame (reads_textLine hline)
  | bigNumber s =>
    simp only [encode, Frame.canon]
    exact reads_parseFrame (reads_textLine hline)
  | integer n =>
    simp only [encode, Frame.canon]
    exact reads_parseFrame (reads_parseInteger n)
  | bulk b =>
    simp only [encode, Frame.canon]
    rw [List.append_assoc _ b]
    exact reads_parseFrame (reads_parseBulk hsize false rfl)
  | bulkError s =>
    simp only [encode, Frame.canon]
    rw [List.append_assoc _ (utf8 s)]
    exact reads_parseFrame (reads_parseBulk hsize true (by rw [strFrom_utf8]; rfl))
  | verbatim format data =>
    simp only [encode, Frame.canon]
    rw [List.append_assoc _ data, List.append_assoc _ _ (data ++ CRLF)]
    exact reads_parseFrame (reads_parseVerbatim hsize)
  | null =>
    simp only [encode, Frame.canon]
    cases version with
    | v2 => exact reads_parseFrame reads_parseBulk_null
    | v3 => exact reads_parseFrame reads_parseNull
  | boolean b =>
    have hbytes : utf8 (if b then "#t" else "#f") = 35 :: utf8 (if b then "t" else "f") := by
      cases b <;> decide
    simp only [encode, Frame.canon]
    rw [hbytes]
    exact reads_parseFrame (reads_parseBoolean b)
  | double d =>
    simp only [encode, Frame.canon]
    exact reads_parseFrame (reads_parseDouble hft d)
  | array items =>
    simp only [encode, Frame.canon]
    rw [encodeItems_eq_flatMap, Frame.canonItems_eq_map]
    exact reads_parseFrame (reads_parseAggregate .array hsize _ _ hbelow)
  | set items =>
    simp only [encode, Frame.canon]
    rw [encodeItems_eq_flatMap, Frame.canonItems_eq_map]
    exact reads_parseFrame (reads_parseAggregate .set hsize _ _ hbelow)
  | push items =>
    simp only [encode, Frame.canon]
    rw [encodeItems_eq_flatMap, Frame.canonItems_eq_map]
    exact reads_parseFrame (reads_parseAggregate .push hsize _ _ hbelow)
  | map pairs =>
    simp only [encode, Frame.canon]
    rw [encodePairs_eq_flatMap, Frame.canonPairs_eq_map]
    exact reads_parseFrame (reads_parseMap hsize _ _ fun p hp =>
        ⟨hbelow _ (Frame.mem_children_map hp).1, hbelow _ (Frame.mem_children_map hp).2⟩)

/-- What is encoded is read back, whatever stands around it. -/
theorem Frame.Nested.reads_encode (hft : ft.Lawful) {f : Frame} {n : ℕ} (hdepth : f.Nested n)
    (hlines : f.Everywhere Frame.Lined) (hsizes : f.Everywhere (Frame.Sized limits)) :
    Reads (parseFrame ft limits (n + 1)) (encode ft version f) f.canon := by
  induction hdepth with
  | @leaf n f hleaf =>
    obtain ⟨hline, -⟩ := hlines
    obtain ⟨hsize, -⟩ := hsizes
    apply reads_encode_of_children version hft hline hsize
    rw [hleaf]
    exact fun g hg => absurd hg List.not_mem_nil
  | @node n f below ih =>
    obtain ⟨hline, hlines⟩ := hlines
    obtain ⟨hsize, hsizes⟩ := hsizes
    exact reads_encode_of_children version hft hline hsize fun g hg => ih g hg (hlines g hg) (hsizes g hg)

/-- A frame put in front of any bytes is decoded as it is, and the bytes after it
stay: texts sent as lines hold no CRLF, sizes and nesting are within the limits, and no
double is a NaN. -/
theorem frame_round_trip (hft : ft.Lawful) {f : Frame} (hlines : f.Everywhere Frame.Lined)
    (hnan : f.Everywhere Frame.NotNaN) (hsizes : f.Everywhere (Frame.Sized limits))
    (hdepth : f.Nested limits.maxDepth) (rest : Bytes) :
    decode ft limits (encode ft version f ++ rest) = (.ok (some f), rest) := by
  have hread := hdepth.reads_encode version hft hlines hsizes [] rest
  rw [hnan.canon_eq, List.nil_append, List.length_nil, Nat.zero_add] at hread
  rw [decode, advance_some hread, List.drop_left]

/-- One fraction in its shortest form; the other numbers are told apart by their bits. -/
def FloatText.quarter : FloatText where
  display d := if d = ⟨0x400A000000000000⟩ then "3.25" else d.bits.toNat.repr
  parse s := if s = "3.25" then some ⟨0x400A000000000000⟩
    else (digitsFrom s.toList).map fun n : ℕ => ⟨UInt64.ofNat n⟩

theorem FloatText.quarter_lawful : FloatText.quarter.Lawful where
  plain := by
    intro d _ c hc
    rw [quarter] at hc
    dsimp only at hc
    split at hc
    · have hlist : "3.25".toList = ['3', '.', '2', '5'] := rfl
      rw [hlist] at hc
      simp only [List.mem_cons, List.not_mem_nil, or_false] at hc
      obtain rfl | rfl | rfl | rfl := hc <;> decide
    · rw [Nat.toList_repr] at hc
      exact .inl (Nat.isDigit_of_mem_toDigits (by decide) (by decide) hc)
  parse_display := by
    intro d _
    simp only [quarter]
    split
    · rename_i h
      rw [if_pos rfl, h]
    · have hne : d.bits.toNat.repr ≠ "3.25" := by
        intro h
        have hdot : '.' ∈ d.bits.toNat.repr.toList := h ▸ by decide
        rw [Nat.toList_repr] at hdot
        exact absurd (Nat.isDigit_of_mem_toDigits (by decide) (by decide) hdot) (by decide)
      rw [if_neg hne, Nat.toList_repr, digitsFrom_toDigits, Option.map_some, UInt64.ofNat_toNat]

/-- A payload with a CRLF in it, and a double and a null below an array. -/
def Frame.nested : Frame :=
  .array [.bulk (97 :: CRLF), .map [(.double ⟨0x400A000000000000⟩, .null)]]

/-- A property of the five frames in it. -/
theorem Frame.nested_everywhere {P : Frame → Prop} (hself : P Frame.nested) (hbulk : P (.bulk (97 :: CRLF)))
    (hmap : P (.map [(.double ⟨0x400A000000000000⟩, .null)])) (hdouble : P (.double ⟨0x400A000000000000⟩))
    (hnull : P .null) : Frame.nested.Everywhere P := by
  refine ⟨hself, List.forall_mem_cons.mpr ⟨.leaf hbulk rfl, List.forall_mem_singleton.mpr ⟨hmap, ?_⟩⟩⟩
  exact List.forall_mem_cons.mpr ⟨.leaf hdouble rfl, List.forall_mem_singleton.mpr (.leaf hnull rfl)⟩

theorem frame_round_trip_nested :
    decode FloatText.quarter Limits.default (utf8 "*2\r\n$3\r\na\r\n\r\n%1\r\n,3.25\r\n$-1\r\n+OK") =
      (.ok (some Frame.nested), utf8 "+OK") := by
  have hbytes : encode FloatText.quarter .v2 Frame.nested ++ utf8 "+OK" =
      utf8 "*2\r\n$3\r\na\r\n\r\n%1\r\n,3.25\r\n$-1\r\n+OK" := by decide
  have hdepth : Frame.nested.Nested 128 :=
    .node (List.forall_mem_cons.mpr ⟨.leaf rfl, List.forall_mem_singleton.mpr (.node
      (List.forall_mem_cons.mpr ⟨.leaf rfl, List.forall_mem_singleton.mpr (.leaf rfl)⟩))⟩)
  have hcount : ∀ n ≤ 3, SizeWithin (1024 * 1024) n := fun n hn => ⟨by omega, by omega⟩
  have hbulk : ∀ n ≤ 3, SizeWithin (512 * 1024 * 1024) n := fun n hn => ⟨by omega, by omega⟩
  have hsizes : Frame.nested.Everywhere (Frame.Sized Limits.default) :=
    Frame.nested_everywhere (hcount 2 (by decide)) (hbulk 3 (by decide)) (hcount 1 (by decide)) trivial trivial
  have h := frame_round_trip .v2 FloatText.quarter_lawful
    (Frame.nested_everywhere trivial trivial trivial trivial trivial)
    (Frame.nested_everywhere trivial trivial trivial rfl trivial) hsizes hdepth (utf8 "+OK")
  rw [hbytes] at h
  exact h

end Frames

end GameStore
