import GameStore.Request
import GameStore.DecodeLimits

/-!
# The request parser and the general parser

`parse_multibulk` has its own code for headers, limits and line ends. On a buffer that
starts with `*` it reads a request with arguments exactly where `parse_frame` reads an
array of bulk strings, and it waits for more only where `parse_frame` waits too. While it
waits for the end of a header line it does so without a limit.
-/

namespace GameStore

open Lib

/-! ## Reading the same items -/

/-- `q` reads what `p` reads, under `f`, and waits wherever `p` waits. -/
structure ReadsAs {α β : Type} (f : α → β) (p : Result α) (q : Result β) : Prop where
  value : ∀ a n, p = .ok (some (a, n)) ↔ q = .ok (some (f a, n))
  waits : p = .ok none → q = .ok none

section ReadsAs

variable {α β γ : Type} {f : α → β}

theorem ReadsAs.bind {p : Result γ} {k : γ → ℕ → Result α} {k' : γ → ℕ → Result β}
    (h : ∀ c n, ReadsAs f (k c n) (k' c n)) : ReadsAs f (p.bind k) (p.bind k') := by
  constructor
  · intro a n
    simp only [Parsed.bind_eq_some, (h _ _).value]
  · intro hw
    rw [Parsed.bind_eq_none] at hw ⊢
    exact hw.imp id fun ⟨c, n, hp, hk⟩ => ⟨c, n, hp, (h c n).waits hk⟩

theorem ReadsAs.ite {c : Prop} [Decidable c] {p p' : Result α} {q q' : Result β} (h : ReadsAs f p q)
    (h' : ReadsAs f p' q') : ReadsAs f (if c then p else p') (if c then q else q') := by
  split
  · exact h
  · exact h'

theorem ReadsAs.waiting : ReadsAs f (.ok none : Result α) (.ok none : Result β) :=
  ⟨fun _ _ => ⟨fun h => (nomatch h), fun h => (nomatch h)⟩, fun _ => rfl⟩

theorem ReadsAs.refused {e : ProtocolError} {q : Result β} (h : ∀ a n, q ≠ .ok (some (f a, n))) :
    ReadsAs f (.error e : Result α) q :=
  ⟨fun a n => ⟨fun h => (nomatch h), fun hq => absurd hq (h a n)⟩, fun h => (nomatch h)⟩

theorem ReadsAs.map (hf : Function.Injective f) (p : Result α) :
    ReadsAs f p (p.bind fun a n => .ok (some (f a, n))) := by
  constructor
  · intro a n
    simp only [Parsed.bind_eq_some, Except.ok.injEq, Option.some.injEq, Prod.mk.injEq]
    constructor
    · intro h
      exact ⟨a, n, h, rfl, rfl⟩
    · rintro ⟨b, n', h, hb, rfl⟩
      rwa [← hf hb]
  · rintro rfl
    rfl

theorem readsAs_parseItems {p : Bytes → ℕ → Result α} {q : Bytes → ℕ → Result β} {input : Bytes}
    (h : ∀ pos, ReadsAs f (p input pos) (q input pos)) (count pos : ℕ) :
    ReadsAs (List.map f) (parseItems p input count pos) (parseItems q input count pos) := by
  induction count generalizing pos with
  | zero =>
    refine ⟨fun items n => ?_, fun hw => nomatch hw⟩
    simp only [parseItems, Except.ok.injEq, Option.some.injEq, Prod.mk.injEq]
    rw [eq_comm (a := []), eq_comm (a := []), List.map_eq_nil_iff]
  | succ count ih =>
    constructor
    · intro items n
      rw [parseItems_succ, parseItems_succ]
      constructor
      · rintro ⟨a, next, as, hp, hrest, rfl⟩
        exact ⟨f a, next, as.map f, ((h pos).value a next).mp hp, ((ih next).value as n).mp hrest, rfl⟩
      · rintro ⟨b, next, bs, hq, hrest, hitems⟩
        obtain ⟨a, as, rfl, rfl, rfl⟩ := List.map_eq_cons_iff.mp hitems
        exact ⟨a, next, as, ((h pos).value a next).mpr hq, ((ih next).value as n).mpr hrest, rfl⟩
    · rw [parseItems_succ_waits, parseItems_succ_waits]
      rintro (hp | ⟨a, next, hp, hrest⟩)
      · exact .inl ((h pos).waits hp)
      · exact .inr ⟨f a, next, ((h pos).value a next).mp hp, (ih next).waits hrest⟩

end ReadsAs

/-! ## Arguments and bulk strings -/

section Agreement

variable {ft : FloatText} {limits : Limits}

theorem readsAs_parseArg (levels : ℕ) (input : Bytes) (pos : ℕ) :
    ReadsAs Frame.bulk (parseArg limits input pos) (parseFrame ft limits (levels + 1) input pos) := by
  rw [parseArg, parseFrame, byteThen, byteThen]
  cases input[pos]? with
  | none => exact .waiting
  | some b =>
    dsimp only
    by_cases hb : b = 36
    · subst hb
      rw [if_neg (not_not.mpr rfl)]
      change ReadsAs Frame.bulk _ (parseBulk limits false input (pos + 1))
      refine ReadsAs.bind fun len afterHdr => ?_
      by_cases hneg : len < 0
      · rw [if_pos hneg]
        refine .refused fun payload n h => ?_
        split at h
        · cases h
        · cases h
      · have hnull : ¬ (len = -1 ∧ (!false) = true) := by omega
        rw [if_neg hneg, if_neg hnull, if_neg hneg]
        refine .ite (.refused fun payload n h => ?_) (.map (fun _ _ h => Frame.bulk.inj h) _)
        cases h
    · rw [if_pos hb]
      exact .refused fun payload n h => hb (parseBody_announced input (pos + 1) _ _ h).1

/-- What the two parsers make of the elements that a count announces. -/
theorem readsAs_elements (levels count : ℕ) (input : Bytes) (pos : ℕ) :
    ReadsAs (fun args : List Bytes => Frame.array (args.map .bulk))
      (parseItems (parseArg limits) input count pos)
      ((parseItems (parseFrame ft limits (levels + 1)) input count pos).bind fun items stop =>
        .ok (some (.array items, stop))) := by
  have hitems := readsAs_parseItems (@readsAs_parseArg ft limits levels input) count pos
  constructor
  · intro args n
    rw [hitems.value, (ReadsAs.map (fun _ _ h => Frame.array.inj h) _).value]
  · intro hw
    rw [hitems.waits hw]
    rfl

theorem parseFrame_array (levels : ℕ) {input : Bytes} (h : input.head? = some 42) :
    parseFrame ft limits (levels + 1) input 0 =
      parseAggregate limits (parseFrame ft limits levels) .array input 1 := by
  rw [parseFrame, byteThen, ← List.head?_eq_getElem?, h]
  rfl

/-- After the count, for a request that has arguments. -/
theorem multibulk_agrees (levels : ℕ) (input : Bytes) {args : List Bytes} (hargs : args ≠ []) (n : ℕ) :
    parseMultibulk limits input = .ok (some (args, n)) ↔
      parseAggregate limits (parseFrame ft limits (levels + 1)) .array input 1 =
        .ok (some (.array (args.map .bulk), n)) := by
  rw [parseMultibulk, parseAggregate, Parsed.bind_eq_some, Parsed.bind_eq_some]
  refine exists_congr fun count => exists_congr fun pos => and_congr_right fun _ => ?_
  by_cases hpos : count ≤ 0
  · rw [if_pos hpos]
    constructor
    · intro h
      simp only [Except.ok.injEq, Option.some.injEq, Prod.mk.injEq] at h
      exact absurd h.1.symm hargs
    · intro h
      split at h
      · cases h
      split at h
      · cases h
      split at h
      · cases h
      -- The count is `0`, so that there are no elements.
      have hzero : count.toNat = 0 := by omega
      rw [hzero] at h
      simp only [parseItems, Parsed.bind_some, Aggregate.frame, Except.ok.injEq, Option.some.injEq,
        Prod.mk.injEq, Frame.array.injEq] at h
      exact absurd (List.map_eq_nil_iff.mp h.1.symm) hargs
  · have hnull : ¬ count = -1 := by omega
    have hneg : ¬ count < 0 := by omega
    rw [if_neg hpos, if_neg hnull, if_neg hneg]
    by_cases hmax : limits.maxArrayLen < count.toNat
    · rw [if_pos hmax, if_pos hmax]
      constructor
      · intro h
        cases h
      · intro h
        cases h
    · rw [if_neg hmax, if_neg hmax]
      exact (readsAs_elements levels count.toNat input pos).value args n

theorem multibulk_waits (levels : ℕ) {input : Bytes} (h : parseMultibulk limits input = .ok none) :
    parseAggregate limits (parseFrame ft limits (levels + 1)) .array input 1 = .ok none := by
  rw [parseMultibulk, Parsed.bind_eq_none] at h
  rw [parseAggregate, Parsed.bind_eq_none]
  refine h.imp id ?_
  rintro ⟨count, pos, hhdr, h⟩
  refine ⟨count, pos, hhdr, ?_⟩
  split at h
  · cases h
  rename_i hpos
  split at h
  · cases h
  rename_i hmax
  have hnull : ¬ count = -1 := by omega
  have hneg : ¬ count < 0 := by omega
  rw [if_neg hnull, if_neg hneg, if_neg hmax]
  exact (readsAs_elements levels count.toNat input pos).waits h

/-- On every buffer that starts with `*`, with at least one level of nesting allowed: the
request parser returns the arguments `args`, leaving `rest`, exactly if the general parser
returns the array of their bulk strings, leaving `rest`; and where it asks for more, so
does the general one. -/
theorem request_parser_agrees (ft : FloatText) (limits : Limits) (hdepth : 1 ≤ limits.maxDepth) (buf : Bytes)
    (hbuf : buf.head? = some 42) :
    (∀ args rest, args ≠ [] → (decodeCommand limits buf = (.ok (some args), rest) ↔
      decode ft limits buf = (.ok (some (.array (args.map .bulk))), rest))) ∧
    (decodeCommand limits buf = (.ok none, buf) → decode ft limits buf = (.ok none, buf)) := by
  obtain ⟨levels, hlevels⟩ : ∃ levels, limits.maxDepth = levels + 1 := ⟨limits.maxDepth - 1, by omega⟩
  rw [decodeCommand, decode, hlevels]
  constructor
  · intro args rest hargs
    rw [advance_eq_some, advance_eq_some]
    refine exists_congr fun n => and_congr_left fun _ => ?_
    rw [parseCommand_multibulk hbuf, parseFrame_array (levels + 1) hbuf]
    exact multibulk_agrees levels buf hargs n
  · intro h
    rw [advance_eq_none, parseCommand_multibulk hbuf] at h
    rw [advance_eq_none, parseFrame_array (levels + 1) hbuf]
    exact multibulk_waits levels h

/-- A request of two arguments, and the first byte of the next one. -/
def pingRequest : Bytes := utf8 "*2\r\n$4\r\nPING\r\n$1\r\nx\r\n*"

theorem request_parser_agrees_ping :
    decodeCommand Limits.default pingRequest = (.ok (some [utf8 "PING", utf8 "x"]), [42]) ∧
      decode FloatText.quarter Limits.default pingRequest =
        (.ok (some (.array [.bulk (utf8 "PING"), .bulk (utf8 "x")])), [42]) := by
  have hrequest : decodeCommand Limits.default pingRequest = (.ok (some [utf8 "PING", utf8 "x"]), [42]) := by
    decide +kernel
  have hagrees := request_parser_agrees FloatText.quarter Limits.default (by decide) pingRequest (by decide)
  exact ⟨hrequest, (hagrees.1 [utf8 "PING", utf8 "x"] [42] (by decide)).mp hrequest⟩

/-! ## Waiting -/

/-- A count of as many digits as one likes, without its line end. -/
def endlessCount (n : ℕ) : Bytes := 42 :: List.replicate n 48

theorem decodeCommand_endlessCount (limits : Limits) (n : ℕ) :
    decodeCommand limits (endlessCount n) = (.ok none, endlessCount n) := by
  have hpair : findPair 13 10 ((endlessCount n).drop 1) = none := by
    rw [findPair_eq_none_iff]
    intro hinfix
    have hcr : (13 : UInt8) ∈ List.replicate n 48 := hinfix.subset (by simp)
    exact absurd (List.eq_of_mem_replicate hcr) (by decide)
  have hline : readLine (endlessCount n) 1 = .ok none := by
    rw [readLine, if_neg (by simp [endlessCount]), hpair]
    rfl
  rw [decodeCommand, advance_eq_none, parseCommand_multibulk rfl, parseMultibulk, parseHeader, fromLine, hline]
  rfl

/-- An inline request is not waited for beyond the limit. -/
theorem inline_waits_bounded {limits : Limits} {buf : Bytes} (hbuf : buf.head? ≠ some 42)
    (h : decodeCommand limits buf = (.ok none, buf)) : buf.length ≤ limits.maxInlineLen := by
  rw [decodeCommand, advance_eq_none] at h
  by_cases hne : buf = []
  · simp [hne]
  rw [parseCommand_inline hne hbuf] at h
  by_cases hcrlf : CRLF <:+: buf
  · obtain ⟨line, next, hline⟩ := exists_readLine hcrlf
    rw [parseInline_line hline] at h
    split at h
    · cases h
    · cases hsplit : splitInline line with
      | error e =>
        rw [hsplit] at h
        cases h
      | ok args =>
        rw [hsplit] at h
        cases h
  · rw [parseInline_open (readLine_eq_none_iff.mpr hcrlf)] at h
    split at h
    · cases h
    · omega

/-- Whatever the limits, no number bounds the buffers on which more data is asked for. -/
theorem waiting_not_bounded (limits : Limits) :
    ¬ ∃ bound, ∀ buf, decodeCommand limits buf = (.ok none, buf) → buf.length ≤ bound := by
  rintro ⟨bound, hbound⟩
  have hlen := hbound (endlessCount bound) (decodeCommand_endlessCount limits bound)
  rw [endlessCount, List.length_cons, List.length_replicate] at hlen
  omega

theorem default_waiting_not_bounded :
    ¬ ∃ bound, ∀ buf, decodeCommand Limits.default buf = (.ok none, buf) → buf.length ≤ bound := by
  rintro ⟨bound, hbound⟩
  have hlen := hbound (endlessCount bound) (decodeCommand_endlessCount Limits.default bound)
  rw [endlessCount, List.length_cons, List.length_replicate] at hlen
  omega

end Agreement

end GameStore
