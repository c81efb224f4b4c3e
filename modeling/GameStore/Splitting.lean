import GameStore.Quoting

/-!
# Inline requests against `sdssplitargs`

`split_inline` decides at the first byte of an argument whether it is quoted. The
tokenizer it mirrors opens a quoted section at any quote it meets outside of quotes. The
two part at a quote inside an unquoted argument, and from there on they agree on nothing
but failure.
-/

namespace GameStore

/-! ## The reference -/

/-- After a closing quote there is white space or nothing. -/
def endsToken (rest : Bytes) : Bool := rest.head?.all isSpace

/-- The reference tokenizer, byte by byte; its state is that of `splitFrom`. On a line
without CR, LF, VT and FF the white space is the blanks and tabs. -/
def sdsFrom : Token → Bytes → Option (List Bytes)
  | .gap, [] => some []
  | .gap, b :: rest =>
    if isSpace b then sdsFrom .gap rest
    else if b = 34 then sdsFrom (.double []) rest
    else if b = 39 then sdsFrom (.single []) rest
    else sdsFrom (.bare [b]) rest
  | .bare cur, [] => some [cur]
  | .bare cur, b :: rest =>
    if isSpace b then (sdsFrom .gap rest).map fun args => cur :: args
    else if b = 34 then sdsFrom (.double cur) rest
    else if b = 39 then sdsFrom (.single cur) rest
    else sdsFrom (.bare (cur ++ [b])) rest
  | .double _, [] => none
  | .double cur, 34 :: rest =>
    if endsToken rest then (sdsFrom .gap rest).map fun args => cur :: args else none
  | .double cur, 92 :: 120 :: hi :: lo :: rest =>
    if isHex hi && isHex lo then sdsFrom (.double (cur ++ [hexVal hi <<< 4 ||| hexVal lo])) rest
    else sdsFrom (.double (cur ++ [120])) (hi :: lo :: rest)
  | .double cur, 92 :: e :: rest => sdsFrom (.double (cur ++ [unescape e])) rest
  | .double cur, b :: rest => sdsFrom (.double (cur ++ [b])) rest
  | .single _, [] => none
  | .single cur, 39 :: rest =>
    if endsToken rest then (sdsFrom .gap rest).map fun args => cur :: args else none
  | .single cur, 92 :: 39 :: rest => sdsFrom (.single (cur ++ [39])) rest
  | .single cur, b :: rest => sdsFrom (.single (cur ++ [b])) rest

def sdssplitargs (line : Bytes) : Option (List Bytes) := sdsFrom .gap line

/-! ## Where the quotes stand -/

/-- Where a byte of the line stands. -/
inductive Place
  | gap
  | bare
  | double
  | single

@[simp] def Token.place : Token → Place
  | .gap => .gap
  | .bare _ => .bare
  | .double _ => .double
  | .single _ => .single

/-- Every quoted section is closed, with white space or the end after the closing quote. A
section starts at a quote in front of an argument and, with `inside`, at one inside an
unquoted argument too. -/
def closes (inside : Bool) : Place → Bytes → Bool
  | .gap, [] => true
  | .gap, b :: rest =>
    if isSpace b then closes inside .gap rest
    else if b = 34 then closes inside .double rest
    else if b = 39 then closes inside .single rest
    else closes inside .bare rest
  | .bare, [] => true
  | .bare, b :: rest =>
    if isSpace b then closes inside .gap rest
    else if inside && b = 34 then closes inside .double rest
    else if inside && b = 39 then closes inside .single rest
    else closes inside .bare rest
  | .double, [] => false
  | .double, 34 :: rest => endsToken rest && closes inside .gap rest
  | .double, 92 :: _ :: rest => closes inside .double rest
  | .double, _ :: rest => closes inside .double rest
  | .single, [] => false
  | .single, 39 :: rest => endsToken rest && closes inside .gap rest
  | .single, 92 :: 39 :: rest => closes inside .single rest
  | .single, _ :: rest => closes inside .single rest

/-- A quote stands inside an unquoted argument, and the sections before it are closed. -/
def quoteInside : Place → Bytes → Bool
  | .gap, [] => false
  | .gap, b :: rest =>
    if isSpace b then quoteInside .gap rest
    else if b = 34 then quoteInside .double rest
    else if b = 39 then quoteInside .single rest
    else quoteInside .bare rest
  | .bare, [] => false
  | .bare, b :: rest =>
    if isSpace b then quoteInside .gap rest else b = 34 || b = 39 || quoteInside .bare rest
  | .double, [] => false
  | .double, 34 :: rest => endsToken rest && quoteInside .gap rest
  | .double, 92 :: _ :: rest => quoteInside .double rest
  | .double, _ :: rest => quoteInside .double rest
  | .single, [] => false
  | .single, 39 :: rest => endsToken rest && quoteInside .gap rest
  | .single, 92 :: 39 :: rest => quoteInside .single rest
  | .single, _ :: rest => quoteInside .single rest

/-! ## When the two fail -/

/-- Hex digits are neither quotes nor backslashes. -/
theorem isHex_ne {b : UInt8} (h : isHex b = true) : b ≠ 34 ∧ b ≠ 92 ∧ isSpace b = false := by
  have hall : ∀ n : Fin 256, isHex (UInt8.ofFin n) = true →
      UInt8.ofFin n ≠ 34 ∧ UInt8.ofFin n ≠ 92 ∧ isSpace (UInt8.ofFin n) = false := by
    decide +kernel
  exact hall b.toFin h

theorem closeQuote_toOption (cur rest : Bytes) (args : Except ProtocolError (List Bytes)) :
    (closeQuote cur rest args).toOption =
      if endsToken rest then args.toOption.map fun args => cur :: args else none := by
  rw [closeQuote, endsToken]
  cases rest with
  | nil => cases args <;> rfl
  | cons b rest =>
    cases hb : isSpace b <;> cases args <;> simp [hb, Except.toOption, Except.map]

theorem map_toOption (cur : Bytes) (args : Except ProtocolError (List Bytes)) :
    (args.map fun args => cur :: args).toOption = args.toOption.map fun args => cur :: args := by
  cases args <;> rfl

theorem closes_hex (inside : Bool) {hi lo : UInt8} (rest : Bytes) (hhi : isHex hi = true)
    (hlo : isHex lo = true) :
    closes inside .double (92 :: 120 :: hi :: lo :: rest) = closes inside .double rest := by
  have h := isHex_ne hhi
  have h' := isHex_ne hlo
  simp [closes, h.1, h.2.1, h'.1, h'.2.1]

theorem isSome_splitFrom (token : Token) (line : Bytes) :
    (splitFrom token line).toOption.isSome = closes false token.place line := by
  fun_induction splitFrom token line with
  | case1 => rfl
  | case6 => rfl
  | case9 => rfl
  | case11 cur hi lo rest hhex _ ih =>
    rw [Bool.and_eq_true] at hhex
    rw [ih, Token.place, Token.place, closes_hex false rest hhex.1 hhex.2]
  | case14 => rfl
  | case16 => rfl
  | _ => simp_all [closes, closeQuote_toOption, map_toOption, apply_ite Option.isSome]

theorem isSome_sdsFrom (token : Token) (line : Bytes) :
    (sdsFrom token line).isSome = closes true token.place line := by
  fun_induction sdsFrom token line with
  | case14 cur hi lo rest hhex ih =>
    rw [Bool.and_eq_true] at hhex
    rw [ih, Token.place, Token.place, closes_hex true rest hhex.1 hhex.2]
  | _ => simp_all [closes]

/-! ## What a section says -/

/-- The first of `args` is `cur` and the text of the section that `line` goes on with. The
text is no longer than the section, and it has a blank when the section has one. -/
def SectionText (q : UInt8) (cur line : Bytes) (args : List Bytes) : Prop :=
  ∃ body text rest, line = body ++ q :: rest ∧ endsToken rest = true ∧ args.head? = some (cur ++ text) ∧
    text.length ≤ body.length ∧ (body.any isSpace = true → text.any isSpace = true)

theorem SectionText.close {q : UInt8} {cur rest : Bytes} {args : List Bytes} (hends : endsToken rest = true)
    (h : (sdsFrom .gap rest).map (fun args => cur :: args) = some args) :
    SectionText q cur (q :: rest) args := by
  obtain ⟨args, -, rfl⟩ := Option.map_eq_some_iff.mp h
  exact ⟨[], [], rest, rfl, hends, by simp, Nat.le_refl _, id⟩

/-- The bytes `pre` spell `v`. -/
theorem SectionText.spelled {q v : UInt8} {cur line : Bytes} {args : List Bytes} (pre : Bytes)
    (h : SectionText q (cur ++ [v]) line args) (hne : pre ≠ [])
    (hspace : pre.any isSpace = true → isSpace v = true) : SectionText q cur (pre ++ line) args := by
  obtain ⟨body, text, rest, rfl, hends, hargs, hlen, hblank⟩ := h
  have hpre := List.length_pos_of_ne_nil hne
  refine ⟨pre ++ body, v :: text, rest, by simp, hends, by simpa using hargs, ?_, ?_⟩
  · rw [List.length_append, List.length_cons]
    omega
  · rw [List.any_append, List.any_cons, Bool.or_eq_true, Bool.or_eq_true]
    exact Or.imp hspace hblank

theorem isSpace_unescape {e : UInt8} (h : isSpace e = true) : isSpace (unescape e) = true := by
  have hall : ∀ n : Fin 256, isSpace (UInt8.ofFin n) = true → isSpace (unescape (UInt8.ofFin n)) = true := by
    decide +kernel
  exact hall e.toFin h

/-- What is said of a section, in the state it is read in. -/
def Token.SectionText (args : List Bytes) (line : Bytes) : Token → Prop
  | .gap => True
  | .bare _ => True
  | .double cur => GameStore.SectionText 34 cur line args
  | .single cur => GameStore.SectionText 39 cur line args

theorem sectionText_sdsFrom {token : Token} {line : Bytes} {args : List Bytes}
    (h : sdsFrom token line = some args) : token.SectionText args line := by
  fun_induction sdsFrom token line with
  | case11 => cases h
  | case12 cur rest hends ih => exact SectionText.close hends h
  | case13 => cases h
  | case14 cur hi lo rest hhex ih =>
    rw [Bool.and_eq_true] at hhex
    refine SectionText.spelled [92, 120, hi, lo] (ih h) (by simp) fun hblank => ?_
    simp [show isSpace 92 = false by decide, show isSpace 120 = false by decide,
      (isHex_ne hhex.1).2.2, (isHex_ne hhex.2).2.2] at hblank
  | case15 cur hi lo rest hhex ih =>
    exact SectionText.spelled [92, 120] (ih h) (by simp) (by simp [isSpace])
  | case16 cur e rest hx ih =>
    refine SectionText.spelled [92, e] (ih h) (by simp) fun hblank => isSpace_unescape ?_
    simpa [show isSpace 92 = false by decide] using hblank
  | case17 cur b rest hquote hx hslash ih =>
    exact SectionText.spelled [b] (ih h) (by simp) (by simp)
  | case18 => cases h
  | case19 cur rest hends ih => exact SectionText.close hends h
  | case20 => cases h
  | case21 cur rest ih => exact SectionText.spelled [92, 39] (ih h) (by simp) (by decide)
  | case22 cur b rest hquote hslash ih => exact SectionText.spelled [b] (ih h) (by simp) (by simp)
  | _ => trivial

/-! ## Where they part -/

/-- Outside of quotes the code takes all bytes up to the next blank. -/
theorem head?_splitFrom_bare {cur line : Bytes} {args : List Bytes} (h : splitFrom (.bare cur) line = .ok args) :
    args.head? = some (cur ++ line.takeWhile fun b => !isSpace b) := by
  induction line generalizing cur with
  | nil =>
    obtain rfl : [cur] = args := Except.ok.inj h
    simp
  | cons b line ih =>
    rw [splitFrom] at h
    split at h
    · rename_i hspace
      cases hrest : splitFrom .gap line with
      | error e =>
        rw [hrest] at h
        cases h
      | ok args' =>
        rw [hrest] at h
        obtain rfl : cur :: args' = args := Except.ok.inj h
        simp [hspace]
    · rename_i hspace
      rw [ih h]
      simp [hspace]

/-- A quoted section is never read as the bytes it is spelled with. -/
theorem section_ne_bare {q : UInt8} (hq : isSpace q = false) {cur line : Bytes} {args args' : List Bytes}
    (hbare : args.head? = some (cur ++ q :: line.takeWhile fun b => !isSpace b))
    (hsection : SectionText q cur line args') : args ≠ args' := by
  rintro rfl
  obtain ⟨body, text, rest, rfl, hends, htext, hlen, hblank⟩ := hsection
  have heq : q :: (body ++ q :: rest).takeWhile (fun b => !isSpace b) = text :=
    List.append_cancel_left (Option.some.inj (hbare.symm.trans htext))
  by_cases hspace : body.any isSpace = true
  · -- The code stops at the blank, and the section goes on over it.
    obtain ⟨b, hb, hbspace⟩ := List.any_eq_true.mp (hblank hspace)
    rw [← heq, List.mem_cons] at hb
    obtain rfl | hb := hb
    · simp [hq] at hbspace
    · have := List.mem_takeWhile_imp hb
      simp [hbspace] at this
  · -- Without a blank the code keeps the quotes, and the section does not.
    have hbody : ∀ b ∈ body, (!isSpace b) = true := by
      simpa using hspace
    have hrest : rest.takeWhile (fun b => !isSpace b) = [] := by
      cases rest with
      | nil => rfl
      | cons b rest =>
        have hb : isSpace b = true := by simpa [endsToken] using hends
        simp [hb]
    have htake : (body ++ q :: rest).takeWhile (fun b => !isSpace b) = body ++ [q] := by
      rw [List.takeWhile_append_of_pos hbody, List.takeWhile_cons, hrest]
      simp [hq]
    rw [htake] at heq
    have := congrArg List.length heq
    simp at this
    omega

theorem quoteInside_hex {hi lo : UInt8} (rest : Bytes) (hhi : isHex hi = true) (hlo : isHex lo = true) :
    quoteInside .double (92 :: 120 :: hi :: lo :: rest) = quoteInside .double rest := by
  have h := isHex_ne hhi
  have h' := isHex_ne hlo
  simp [quoteInside, h.1, h.2.1, h'.1, h'.2.1]

/-- Without such a quote the two read the same. -/
theorem toOption_splitFrom {token : Token} {line : Bytes} (h : quoteInside token.place line = false) :
    (splitFrom token line).toOption = sdsFrom token line := by
  fun_induction splitFrom token line with
  | case1 => rfl
  | case6 => rfl
  | case9 => rfl
  | case11 cur hi lo rest hhex _ ih =>
    rw [sdsFrom, if_pos hhex]
    rw [Bool.and_eq_true] at hhex
    rw [Token.place, quoteInside_hex rest hhex.1 hhex.2] at h
    exact ih h
  | case14 => rfl
  | case16 => rfl
  | _ => simp_all [sdsFrom, quoteInside, closeQuote_toOption, map_toOption]

/-- At a quote inside an argument one keeps the quote and one opens a section. -/
theorem bare_parts {cur rest : Bytes} {q : UInt8} (hq : q = 34 ∨ q = 39) {args : List Bytes}
    (hcode : (splitFrom (.bare (cur ++ [q])) rest).toOption = some args) :
    sdsFrom (.bare cur) (q :: rest) ≠ some args := by
  intro href
  have hspace : isSpace q = false := by
    obtain rfl | rfl := hq <;> decide
  have hok : splitFrom (.bare (cur ++ [q])) rest = .ok args := by
    cases hs : splitFrom (.bare (cur ++ [q])) rest with
    | error e =>
      rw [hs] at hcode
      cases hcode
    | ok args' =>
      rw [hs] at hcode
      exact congrArg Except.ok (Option.some.inj hcode)
  have hbare := head?_splitFrom_bare hok
  rw [List.append_assoc, List.singleton_append] at hbare
  have hsection : SectionText q cur rest args := by
    obtain rfl | rfl := hq
    · rw [sdsFrom, if_neg (by decide), if_pos rfl] at href
      exact sectionText_sdsFrom href
    · rw [sdsFrom, if_neg (by decide), if_neg (by decide), if_pos rfl] at href
      exact sectionText_sdsFrom href
  exact section_ne_bare hspace hbare hsection rfl

theorem cons_parts {x y : Option (List Bytes)} (h : ∀ {args}, x = some args → y ≠ some args) {cur : Bytes}
    {args : List Bytes} (hx : x.map (fun args => cur :: args) = some args) :
    y.map (fun args => cur :: args) ≠ some args := by
  intro hy
  obtain ⟨as, has, rfl⟩ := Option.map_eq_some_iff.mp hx
  obtain ⟨bs, hbs, heq⟩ := Option.map_eq_some_iff.mp hy
  exact h has (hbs.trans (congrArg some (List.cons.inj heq).2))

/-- With one, they never read the same arguments. -/
theorem splitFrom_parts {token : Token} {line : Bytes} (h : quoteInside token.place line = true)
    {args : List Bytes} (hcode : (splitFrom token line).toOption = some args) : sdsFrom token line ≠ some args := by
  fun_induction splitFrom token line generalizing args with
  | case1 => cases h
  | case6 => cases h
  | case7 cur b rest hspace ih =>
    rw [map_toOption] at hcode
    rw [Token.place, quoteInside, if_pos hspace] at h
    rw [sdsFrom, if_pos hspace]
    exact cons_parts (ih h) hcode
  | case8 cur b rest hspace ih =>
    by_cases hq : b = 34 ∨ b = 39
    · exact bare_parts hq hcode
    · rw [not_or] at hq
      rw [sdsFrom, if_neg hspace, if_neg hq.1, if_neg hq.2]
      exact ih (by simpa [quoteInside, hspace, hq.1, hq.2] using h) hcode
  | case9 => cases h
  | case10 cur rest ih =>
    rw [Token.place, quoteInside, Bool.and_eq_true] at h
    rw [closeQuote_toOption, if_pos h.1] at hcode
    rw [sdsFrom, if_pos h.1]
    exact cons_parts (ih h.2) hcode
  | case11 cur hi lo rest hhex _ ih =>
    rw [sdsFrom, if_pos hhex]
    rw [Bool.and_eq_true] at hhex
    rw [Token.place, quoteInside_hex rest hhex.1 hhex.2] at h
    exact ih h hcode
  | case12 cur hi lo rest hhex _ ih =>
    rw [sdsFrom, if_neg hhex]
    exact ih h hcode
  | case14 => cases h
  | case16 => cases h
  | case17 cur rest ih =>
    rw [Token.place, quoteInside, Bool.and_eq_true] at h
    rw [closeQuote_toOption, if_pos h.1] at hcode
    rw [sdsFrom, if_pos h.1]
    exact cons_parts (ih h.2) hcode
  | _ => simp_all [sdsFrom, quoteInside]

/-- `split_inline` reads a line as `sdssplitargs` does exactly when no quote stands inside an
unquoted argument, or when in both ways of reading it a quoted section is not closed as it
should be. -/
theorem splitInline_agrees_iff (line : Bytes) :
    (splitInline line).toOption = sdssplitargs line ↔
      quoteInside .gap line = false ∨ (closes false .gap line = false ∧ closes true .gap line = false) := by
  have hcode := isSome_splitFrom .gap line
  have href := isSome_sdsFrom .gap line
  rw [splitInline, sdssplitargs]
  cases hquote : quoteInside .gap line with
  | false => exact ⟨fun _ => .inl rfl, fun _ => toOption_splitFrom hquote⟩
  | true =>
    have hinside : quoteInside (Token.place .gap) line = true := hquote
    have hparts : (splitFrom .gap line).toOption = sdsFrom .gap line ↔
        (splitFrom .gap line).toOption = none ∧ sdsFrom .gap line = none := by
      constructor
      · intro heq
        cases hargs : (splitFrom .gap line).toOption with
        | none => exact ⟨rfl, heq.symm.trans hargs⟩
        | some args => exact absurd (heq.symm.trans hargs) (splitFrom_parts hinside hargs)
      · rintro ⟨hnone, hnone'⟩
        rw [hnone, hnone']
    rw [hparts, ← Option.isNone_iff_eq_none, ← Option.isNone_iff_eq_none, ← Option.not_isSome,
      ← Option.not_isSome, hcode, href]
    simp

/-- The line `a"b c"` is two arguments with a quote in each, not the one argument `ab c`. -/
theorem splitInline_differs_inside :
    ¬ ∀ line : Bytes, (∀ b ∈ line, b ∉ [0, 10, 11, 12, 13]) →
      (splitInline line).toOption = sdssplitargs line := by
  intro h
  have hline := h [97, 34, 98, 32, 99, 34] (by simp)
  revert hline
  decide

end GameStore
