import GameStore.Request

/-!
# Quoting an inline request

Any list of arguments can be sent on one line. Between double quotes every byte has a
spelling; between single quotes only the quote is escaped, so a CRLF cannot be written
and a backslash not as the last byte.
-/

namespace GameStore

open Lib

/-! ## Writing -/

/-- A hex digit in either case. -/
def hexChar (upper : Bool) (n : UInt8) : UInt8 :=
  if n < 10 then 48 + n else if upper then 55 + n else 87 + n

/-- A byte between double quotes. -/
def escapeDouble (upper : Bool) (b : UInt8) : Bytes :=
  if b = 34 ∨ b = 92 then [92, b]
  else if 32 ≤ b ∧ b ≤ 126 then [b]
  else [92, 120, hexChar upper (b >>> 4), hexChar upper (b &&& 15)]

/-- A byte between single quotes. -/
def escapeSingle (b : UInt8) : Bytes := if b = 39 then [92, 39] else [b]

/-- The quotes around one argument; between double quotes, the case of the hex digits. -/
inductive Quotes
  | double (upper : Bool)
  | single

def Quotes.write : Quotes → Bytes → Bytes
  | .double upper, arg => 34 :: (arg.flatMap (escapeDouble upper) ++ [34])
  | .single, arg => 39 :: (arg.flatMap escapeSingle ++ [39])

/-- What fits between the quotes. -/
def Quotes.Fits : Quotes → Bytes → Prop
  | .double _, _ => True
  | .single, arg => ¬ CRLF <:+: arg ∧ arg.getLast? ≠ some 92

/-- A run of blanks: white space that does not end the line. -/
def Blanks (run : Bytes) : Prop := (∀ b ∈ run, isSpace b) ∧ ¬ CRLF <:+: run

/-- An argument, how it is quoted, and the blanks after it. -/
structure Quoted where
  quotes : Quotes
  arg : Bytes
  blanks : Bytes

def writeItems (items : List Quoted) : Bytes :=
  items.flatMap fun item => item.quotes.write item.arg ++ item.blanks

/-- Every argument fits its quotes, and there are blanks between two arguments. -/
def WellQuoted : List Quoted → Prop
  | [] => True
  | item :: items =>
    item.quotes.Fits item.arg ∧ Blanks item.blanks ∧ (items ≠ [] → item.blanks ≠ []) ∧ WellQuoted items

/-! ## Reading it back -/

section Bytewise

variable (cur rest : Bytes) {b : UInt8}

theorem splitFrom_double_close :
    splitFrom (.double cur) (34 :: rest) = closeQuote cur rest (splitFrom .gap rest) := by
  rw [splitFrom.eq_def]
  rfl

theorem splitFrom_double_byte (hquote : b ≠ 34) (hslash : b ≠ 92) :
    splitFrom (.double cur) (b :: rest) = splitFrom (.double (cur ++ [b])) rest := by
  rw [splitFrom.eq_def]
  simp only [if_neg hquote, if_neg hslash]

theorem splitFrom_single_close :
    splitFrom (.single cur) (39 :: rest) = closeQuote cur rest (splitFrom .gap rest) := by
  rw [splitFrom.eq_def]
  rfl

theorem splitFrom_single_quote :
    splitFrom (.single cur) (92 :: 39 :: rest) = splitFrom (.single (cur ++ [39])) rest := by
  rw [splitFrom, if_neg (by decide), if_pos rfl]

/-- A backslash that no quote follows stands for itself, as every other byte. -/
theorem splitFrom_single_byte (hquote : b ≠ 39) (hnext : b = 92 → rest.head? ≠ some 39) :
    splitFrom (.single cur) (b :: rest) = splitFrom (.single (cur ++ [b])) rest := by
  by_cases hslash : b = 92
  · subst hslash
    rw [splitFrom, if_neg hquote, if_pos rfl]
    intro rest' h
    subst h
    exact hnext rfl rfl
  · rw [splitFrom.eq_def]
    simp only [if_neg hquote, if_neg hslash]

theorem splitFrom_space {b : UInt8} (h : isSpace b = true) :
    splitFrom .gap (b :: rest) = splitFrom .gap rest := by
  rw [splitFrom, if_pos h]

end Bytewise

theorem hexChar_spells (upper : Bool) (b : UInt8) :
    isHex (hexChar upper (b >>> 4)) = true ∧ isHex (hexChar upper (b &&& 15)) = true ∧
      hexVal (hexChar upper (b >>> 4)) <<< 4 ||| hexVal (hexChar upper (b &&& 15)) = b := by
  have hall : ∀ (upper : Bool) (n : Fin 256), let b := UInt8.ofFin n
      isHex (hexChar upper (b >>> 4)) = true ∧ isHex (hexChar upper (b &&& 15)) = true ∧
        hexVal (hexChar upper (b >>> 4)) <<< 4 ||| hexVal (hexChar upper (b &&& 15)) = b := by
    decide +kernel
  exact hall upper b.toFin

/-- One spelled byte is read as that byte, whatever comes next. -/
theorem splitFrom_escapeDouble (upper : Bool) (cur : Bytes) (b : UInt8) (rest : Bytes) :
    splitFrom (.double cur) (escapeDouble upper b ++ rest) = splitFrom (.double (cur ++ [b])) rest := by
  unfold escapeDouble
  split
  · rename_i hb
    obtain rfl | rfl := hb
    · simp [splitFrom, unescape]
    · simp [splitFrom, unescape]
  · rename_i hb
    rw [not_or] at hb
    split
    · exact splitFrom_double_byte cur rest hb.1 hb.2
    · obtain ⟨hhi, hlo, hval⟩ := hexChar_spells upper b
      simp [splitFrom, hhi, hlo, hval]

theorem splitFrom_double (upper : Bool) (cur arg rest : Bytes) :
    splitFrom (.double cur) (arg.flatMap (escapeDouble upper) ++ 34 :: rest) =
      closeQuote (cur ++ arg) rest (splitFrom .gap rest) := by
  induction arg generalizing cur with
  | nil => rw [List.flatMap_nil, List.nil_append, splitFrom_double_close, List.append_nil]
  | cons b arg ih =>
    rw [List.flatMap_cons, List.append_assoc, splitFrom_escapeDouble, ih, List.append_assoc,
      List.singleton_append]

/-- No escaped argument starts with a quote. -/
theorem head?_escapeSingle (arg : Bytes) (hne : arg ≠ []) (rest : Bytes) :
    (arg.flatMap escapeSingle ++ rest).head? ≠ some 39 := by
  obtain ⟨b, arg, rfl⟩ := List.exists_cons_of_ne_nil hne
  rw [List.flatMap_cons, escapeSingle]
  split
  · simp
  · simpa

theorem splitFrom_single (cur arg rest : Bytes) (hlast : arg.getLast? ≠ some 92) :
    splitFrom (.single cur) (arg.flatMap escapeSingle ++ 39 :: rest) =
      closeQuote (cur ++ arg) rest (splitFrom .gap rest) := by
  induction arg generalizing cur with
  | nil => rw [List.flatMap_nil, List.nil_append, splitFrom_single_close, List.append_nil]
  | cons b arg ih =>
    have hlast' : arg.getLast? ≠ some 92 := by
      intro h
      apply hlast
      rw [List.getLast?_cons, h]
      rfl
    have hgo := ih (cur ++ [b]) hlast'
    rw [List.append_assoc, List.singleton_append] at hgo
    rw [List.flatMap_cons, List.append_assoc, escapeSingle]
    split
    · rename_i hb
      subst hb
      rw [← hgo]
      exact splitFrom_single_quote cur _
    · rename_i hb
      rw [← hgo]
      refine splitFrom_single_byte cur _ hb fun hslash => ?_
      -- The backslash is not the last byte, and what follows it is no bare quote.
      apply head?_escapeSingle
      rintro rfl
      exact hlast (congrArg some hslash)

theorem splitFrom_blanks {run : Bytes} (h : ∀ b ∈ run, isSpace b) (rest : Bytes) :
    splitFrom .gap (run ++ rest) = splitFrom .gap rest := by
  induction run with
  | nil => rfl
  | cons b run ih =>
    rw [List.forall_mem_cons] at h
    rw [List.cons_append, splitFrom_space _ h.1, ih h.2]

theorem splitFrom_write {quotes : Quotes} {arg : Bytes} (h : quotes.Fits arg) (rest : Bytes) :
    splitFrom .gap (quotes.write arg ++ rest) = closeQuote arg rest (splitFrom .gap rest) := by
  cases quotes with
  | double upper =>
    rw [Quotes.write, List.cons_append, splitFrom, if_neg (by decide), if_pos rfl, List.append_assoc,
      List.singleton_append, splitFrom_double, List.nil_append]
  | single =>
    rw [Quotes.write, List.cons_append, splitFrom, if_neg (by decide), if_neg (by decide), if_pos rfl,
      List.append_assoc, List.singleton_append, splitFrom_single _ _ _ h.2, List.nil_append]

/-- The closing quote stands before a blank or at the end. -/
theorem closeQuote_blanks {blanks rest : Bytes} (h : ∀ b ∈ blanks, isSpace b) (hend : rest ≠ [] → blanks ≠ [])
    (arg : Bytes) (args : List Bytes) : closeQuote arg (blanks ++ rest) (.ok args) = .ok (arg :: args) := by
  rw [closeQuote, if_neg]
  · rfl
  · cases blanks with
    | nil =>
      have hnil : rest = [] := by
        by_contra hne
        exact hend hne rfl
      simp [hnil]
    | cons b blanks => simp [h b List.mem_cons_self]

theorem splitFrom_writeItems {items : List Quoted} (h : WellQuoted items) :
    splitFrom .gap (writeItems items) = .ok (items.map Quoted.arg) := by
  induction items with
  | nil => rfl
  | cons item items ih =>
    obtain ⟨hfits, hblanks, hsep, hrest⟩ := h
    have hend : writeItems items ≠ [] → item.blanks ≠ [] := by
      intro hne
      apply hsep
      rintro rfl
      exact hne rfl
    rw [writeItems, List.flatMap_cons, ← writeItems, List.append_assoc, splitFrom_write hfits,
      splitFrom_blanks hblanks.1, ih hrest, closeQuote_blanks hblanks.1 hend, List.map_cons]

/-! ## The line -/

theorem escapeDouble_printable (upper : Bool) (b : UInt8) : ∀ c ∈ escapeDouble upper b, 32 ≤ c := by
  have hall : ∀ (upper : Bool) (n : Fin 256),
      (escapeDouble upper (UInt8.ofFin n)).all (fun c => decide (32 ≤ c)) = true := by
    decide +kernel
  intro c hc
  exact of_decide_eq_true (List.all_eq_true.mp (hall upper b.toFin) c hc)

/-- Escaping a quote makes no line end. -/
theorem crlf_infix_escapeSingle (arg : Bytes) : CRLF <:+: arg.flatMap escapeSingle ↔ CRLF <:+: arg := by
  induction arg with
  | nil => rfl
  | cons b arg ih =>
    have hhead : (arg.flatMap escapeSingle).head? = some 10 ↔ arg.head? = some 10 := by
      cases arg with
      | nil => rfl
      | cons c arg =>
        rw [List.flatMap_cons, escapeSingle]
        split
        · rename_i hc
          simp [hc]
        · simp
    rw [CRLF] at ih ⊢
    rw [List.flatMap_cons, escapeSingle]
    split
    · rename_i hb
      subst hb
      rw [pair_infix_append_left (by decide), ih, pair_infix_cons]
      simp
    · rw [List.singleton_append, pair_infix_cons, pair_infix_cons, ih, hhead]

theorem write_oneLine {quotes : Quotes} {arg : Bytes} (h : quotes.Fits arg) : ¬ CRLF <:+: quotes.write arg := by
  cases quotes with
  | double upper =>
    intro hcrlf
    have hmem : (10 : UInt8) ∈ (Quotes.double upper).write arg := hcrlf.subset (by simp [CRLF])
    rw [Quotes.write, List.mem_cons, List.mem_append, List.mem_flatMap] at hmem
    obtain hmem | ⟨b, -, hmem⟩ | hmem := hmem
    · exact absurd hmem (by decide)
    · exact absurd (escapeDouble_printable upper b 10 hmem) (by decide)
    · exact absurd hmem (by decide)
  | single =>
    rw [Quotes.write, CRLF, pair_infix_cons, pair_infix_append_right (by decide), ← CRLF,
      crlf_infix_escapeSingle]
    rintro (hquote | hcrlf)
    · exact absurd hquote.1 (by decide)
    · exact h.1 hcrlf

/-- Quotes stand at both ends. -/
theorem exists_write (quotes : Quotes) (arg : Bytes) :
    ∃ q body, (q = 34 ∨ q = 39) ∧ quotes.write arg = q :: (body ++ [q]) := by
  cases quotes with
  | double upper => exact ⟨34, _, .inl rfl, rfl⟩
  | single => exact ⟨39, _, .inr rfl, rfl⟩

theorem writeItems_oneLine {items : List Quoted} (h : WellQuoted items) (lead : Bytes)
    (hlead : ¬ CRLF <:+: lead) : ¬ CRLF <:+: lead ++ writeItems items := by
  induction items generalizing lead with
  | nil => simpa [writeItems] using hlead
  | cons item items ih =>
    obtain ⟨hfits, hblanks, -, hrest⟩ := h
    have hwrite := write_oneLine hfits
    have hafter := ih hrest item.blanks hblanks.2
    obtain ⟨q, body, hq, heq⟩ := exists_write item.quotes item.arg
    have hcr : q ≠ 13 ∧ q ≠ 10 := by
      obtain rfl | rfl := hq <;> decide
    rw [heq, CRLF, pair_infix_cons, pair_infix_append_cons hcr.1 hcr.2] at hwrite
    rw [CRLF] at hlead hafter ⊢
    rw [writeItems, List.flatMap_cons, ← writeItems, heq, List.cons_append, List.cons_append,
      pair_infix_append_cons hcr.1 hcr.2, List.append_assoc, List.append_assoc, List.singleton_append,
      pair_infix_append_cons hcr.1 hcr.2]
    tauto

/-- A line with blanks or a quote in front is no multibulk request. -/
theorem head?_line_ne {lead : Bytes} (hlead : Blanks lead) (items : List Quoted) (rest : Bytes) :
    (lead ++ writeItems items ++ CRLF ++ rest).head? ≠ some 42 := by
  cases lead with
  | cons b lead =>
    intro hb
    obtain rfl : b = 42 := Option.some.inj hb
    exact absurd (hlead.1 42 List.mem_cons_self) (by decide)
  | nil =>
    cases items with
    | nil => simp [writeItems, CRLF]
    | cons item items =>
      obtain ⟨q, body, hq, heq⟩ := exists_write item.quotes item.arg
      rw [writeItems, List.flatMap_cons, heq]
      obtain rfl | rfl := hq
      · simp
      · simp

/-- A whole line at the front of the buffer is read as that line. -/
theorem decodeCommand_line {limits : Limits} {line rest : Bytes} {args : List Bytes}
    (hhead : (line ++ CRLF ++ rest).head? ≠ some 42) (hline : ¬ CRLF <:+: line)
    (hlen : line.length ≤ limits.maxInlineLen) (hargs : splitInline line = .ok args) :
    decodeCommand limits (line ++ CRLF ++ rest) = (.ok (some args), rest) := by
  have hbuf : line ++ CRLF ++ rest = line ++ 13 :: 10 :: rest := by simp [CRLF]
  have hread : readLine (line ++ CRLF ++ rest) 0 = .ok (some (line, line.length + 2)) := by
    rw [readLine_zero, hbuf, findPair_line (by decide) hline]
    simp [slice]
  have hparse : parseCommand limits (line ++ CRLF ++ rest) = .ok (some (args, line.length + 2)) := by
    rw [parseCommand_inline (by simp [hbuf]) hhead, parseInline_line hread, if_neg (by omega), hargs]
    rfl
  rw [decodeCommand, advance_some hparse, hbuf]
  simp

/-- Inline quoting is complete: a line of arguments in double or single quotes, with blanks
between them and around them, is decoded into exactly these arguments, and nothing but the
line is taken from the buffer. -/
theorem quoted_line_decodes (limits : Limits) {lead : Bytes} {items : List Quoted} (hlead : Blanks lead)
    (hitems : WellQuoted items) (hlen : (lead ++ writeItems items).length ≤ limits.maxInlineLen) (rest : Bytes) :
    decodeCommand limits (lead ++ writeItems items ++ CRLF ++ rest) = (.ok (some (items.map Quoted.arg)), rest) := by
  refine decodeCommand_line (head?_line_ne hlead items rest) (writeItems_oneLine hitems lead hlead.2) hlen ?_
  rw [splitInline, splitFrom_blanks hlead.1]
  exact splitFrom_writeItems hitems

/-- Three arguments: a quote and a hex digit after an escape, a backslash before a quote, and
nothing at all. -/
theorem quoted_line_decodes_three :
    let items := [⟨.double true, [255, 65, 34], [32, 9]⟩, ⟨.single, [92, 39], [32]⟩, ⟨.double false, [], []⟩]
    Blanks [] ∧ WellQuoted items ∧
      decodeCommand Limits.default (writeItems items ++ CRLF) = (.ok (some [[255, 65, 34], [92, 39], []]), []) := by
  intro items
  have hblanks : ∀ run : Bytes, (∀ b ∈ run, isSpace b) → 10 ∉ run → Blanks run := by
    intro run hspace hlf
    exact ⟨hspace, fun hcrlf => hlf (hcrlf.subset (by simp [CRLF]))⟩
  have hnone : Blanks [] := hblanks _ (by simp) (by simp)
  have hwell : WellQuoted items := by
    refine ⟨trivial, hblanks _ (by simp [isSpace]) (by simp), by simp, ⟨?_, by simp⟩,
      hblanks _ (by simp [isSpace]) (by simp), by simp, trivial, hnone, by simp, trivial⟩
    exact fun hcrlf => absurd (hcrlf.subset (by simp [CRLF] : (10 : UInt8) ∈ CRLF)) (by simp)
  have hread := quoted_line_decodes Limits.default hnone hwell (by decide +kernel) []
  rw [List.nil_append, List.append_nil] at hread
  exact ⟨hnone, hwell, hread⟩

end GameStore
