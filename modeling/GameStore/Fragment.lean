import GameStore.RoundTrip

/-!
# Frames that arrive in pieces

Every parser of the decoder is `Settled`: it makes up its mind only on bytes that are
there, and it reads forward. This is composed along the parsers and, for frames inside
frames, by induction on the levels that are still allowed.
-/

namespace GameStore

open Lib

/-! ## Lines and payloads -/

theorem slice_append_left {b : Bytes} (c : Bytes) {i j : ℕ} (hj : j ≤ b.length) :
    slice (b ++ c) i j = slice b i j := by
  rw [slice, slice, List.take_append_of_le_length hj]

theorem advances_readLine (start : ℕ) : Advances start fun b => readLine b start := by
  intro b line next h
  dsimp only [readLine] at h
  split at h
  · cases h
  · cases hf : findPair 13 10 (b.drop start) with
    | none =>
      rw [hf] at h
      cases h
    | some i =>
      have hlt := findPair_lt hf
      rw [List.length_drop] at hlt
      rw [hf] at h
      cases h
      omega

theorem settled_readLine (start : ℕ) : Settled start fun b => readLine b start where
  stable := by
    intro b c hd
    dsimp only at hd ⊢
    unfold readLine at hd ⊢
    split at hd
    · exact absurd rfl hd
    · rename_i hstart
      have hdrop : (b ++ c).drop start = b.drop start ++ c := List.drop_append_of_le_length (by omega)
      cases hf : findPair 13 10 (b.drop start) with
      | none =>
        rw [hf] at hd
        exact absurd rfl hd
      | some i =>
        have hlt := findPair_lt hf
        rw [List.length_drop] at hlt
        rw [if_neg hstart, if_neg (by rw [List.length_append]; omega), hdrop, findPair_append hf]
        rw [Option.map_some, Option.map_some, slice_append_left c (by omega)]
  within := by
    intro b line next _ h
    have := advances_readLine start b line next h
    omega

theorem settled_fromLine {α : Type} (f : Bytes → Except ProtocolError α) (start : ℕ) :
    Settled start fun b => fromLine f b start :=
  (settled_readLine start).bind fun line _ => Settled.ofExcept (f line) id

theorem settled_readPayload (start len : ℕ) (msg : String) :
    Settled start fun b => readPayload b start len msg where
  stable := by
    intro b c hd
    dsimp only [readPayload] at hd ⊢
    split at hd
    · exact absurd rfl hd
    · rename_i hlen
      rw [if_neg hlen, if_neg (by rw [List.length_append]; omega), slice_append_left c (by omega),
        slice_append_left c (by omega)]
  within := by
    intro b payload next hstart h
    unfold readPayload at h
    dsimp only at h
    split at h
    · cases h
    · split at h
      · cases h
      · cases h
        omega

section ByteThen

variable {α : Type} {go : UInt8 → Bytes → ℕ → Result α}
  (hgo : ∀ b start, Settled start fun input => go b input start)

include hgo

/-- The byte is taken, and then what comes after it. -/
theorem advances_byteThen (start : ℕ) : Advances start fun b => byteThen go b start := by
  intro b a next h
  dsimp only [byteThen] at h
  cases ht : b[start]? with
  | none =>
    rw [ht] at h
    cases h
  | some t =>
    rw [ht] at h
    obtain ⟨hlt, -⟩ := List.getElem?_eq_some_iff.mp ht
    have := (hgo t (start + 1)).within b a next hlt h
    omega

theorem settled_byteThen (start : ℕ) : Settled start fun b => byteThen go b start where
  stable := by
    intro b c hd
    dsimp only [byteThen] at hd ⊢
    cases ht : b[start]? with
    | none =>
      rw [ht] at hd
      exact absurd rfl hd
    | some t =>
      rw [ht] at hd
      obtain ⟨hlt, -⟩ := List.getElem?_eq_some_iff.mp ht
      rw [List.getElem?_append_left hlt, ht]
      exact (hgo t (start + 1)).stable b c hd
  within := by
    intro b a next _ h
    have := advances_byteThen hgo start b a next h
    omega

end ByteThen

theorem settled_parseBulk (limits : Limits) (isError : Bool) (start : ℕ) :
    Settled start fun b => parseBulk limits isError b start := by
  refine (settled_fromLine _ start).bind fun len afterHdr => ?_
  refine Settled.ite (Settled.value _) (Settled.ite (Settled.error _) (Settled.ite (Settled.error _) ?_))
  refine (settled_readPayload afterHdr len.toNat _).bind fun payload next => ?_
  exact Settled.ite (Settled.ofExcept _ _) (Settled.value _)

theorem settled_parseVerbatim (limits : Limits) (start : ℕ) :
    Settled start fun b => parseVerbatim limits b start := by
  refine (settled_fromLine _ start).bind fun len afterHdr => ?_
  refine Settled.ite (Settled.error _) (Settled.ite (Settled.error _) ?_)
  refine (settled_readPayload afterHdr len.toNat _).bind fun body next => ?_
  split
  · exact Settled.ite (Settled.error _) (Settled.value _)
  · exact Settled.error _

/-! ## Aggregates and frames -/

section Parse

variable {α : Type} {parse : Bytes → ℕ → Result α}

theorem settled_parseItems (hparse : ∀ start, Settled start fun b => parse b start) (count start : ℕ) :
    Settled start fun b => parseItems parse b count start := by
  induction count generalizing start with
  | zero => exact Settled.value []
  | succ count ih =>
    exact (hparse start).bind fun item next => (ih next).bind fun items _ => Settled.value (item :: items)

end Parse

section Frames

variable {parse : Bytes → ℕ → Result Frame} (hparse : ∀ start, Settled start fun b => parse b start)

include hparse

theorem settled_parsePair (start : ℕ) : Settled start fun b => parsePair parse b start :=
  (hparse start).bind fun key next => (hparse next).bind fun val _ => Settled.value (key, val)

theorem settled_parseAggregate (limits : Limits) (kind : Aggregate) (start : ℕ) :
    Settled start fun b => parseAggregate limits parse kind b start := by
  refine (settled_fromLine _ start).bind fun count pos => ?_
  refine Settled.ite (Settled.ite (Settled.value _) (Settled.error _)) (Settled.ite (Settled.error _)
    (Settled.ite (Settled.error _) ?_))
  exact (settled_parseItems hparse count.toNat pos).bind fun items _ => Settled.value (kind.frame items)

theorem settled_parseMap (limits : Limits) (start : ℕ) :
    Settled start fun b => parseMap limits parse b start := by
  refine (settled_fromLine _ start).bind fun count pos => ?_
  refine Settled.ite (Settled.error _) (Settled.ite (Settled.error _) ?_)
  exact (settled_parseItems (settled_parsePair hparse) count.toNat pos).bind fun pairs _ =>
    Settled.value (Frame.map pairs)

theorem settled_parseBody (ft : FloatText) (limits : Limits) (typeByte : UInt8) (start : ℕ) :
    Settled start fun b => parseBody ft limits parse typeByte b start := by
  unfold parseBody
  split
  any_goals exact settled_fromLine _ start
  · exact settled_parseBulk limits false start
  · exact settled_parseBulk limits true start
  · exact settled_parseVerbatim limits start
  · exact settled_parseAggregate hparse limits .array start
  · exact settled_parseAggregate hparse limits .set start
  · exact settled_parseAggregate hparse limits .push start
  · exact settled_parseMap hparse limits start
  · exact Settled.error _

end Frames

theorem settled_parseFrame (ft : FloatText) (limits : Limits) (levels start : ℕ) :
    Settled start fun b => parseFrame ft limits levels b start := by
  induction levels generalizing start with
  | zero => exact Settled.error _
  | succ levels ih => exact settled_byteThen (settled_parseBody ih ft limits) start

theorem advances_parseFrame (ft : FloatText) (limits : Limits) (levels start : ℕ) :
    Advances start fun b => parseFrame ft limits levels b start := by
  cases levels with
  | zero => exact fun _ _ _ h => nomatch h
  | succ levels => exact advances_byteThen (settled_parseBody (settled_parseFrame ft limits levels) ft limits) start

/-- Frames do not depend on how the bytes come in. A value or an error that is returned
is returned with more bytes, too, which are then left in the buffer; when more bytes are
needed, none is taken; and chunks give the frames, and the first error, of the whole. -/
theorem decode_fragments (ft : FloatText) (limits : Limits) :
    (∀ b c, (decode ft limits b).1 ≠ .ok none →
      decode ft limits (b ++ c) = ((decode ft limits b).1, (decode ft limits b).2 ++ c)) ∧
    (∀ b, (decode ft limits b).1 = .ok none → (decode ft limits b).2 = b) ∧
    ∀ chunks : List Bytes,
      feed (decode ft limits) chunks [] = deliver (decode ft limits) chunks.flatten := by
  have hsettled := settled_parseFrame ft limits (limits.maxDepth + 1) 0
  have hadv := advances_parseFrame ft limits (limits.maxDepth + 1) 0
  refine ⟨fun b c hd => hsettled.stable.advance_append hadv hd c, fun b => advance_left, fun chunks => ?_⟩
  exact feed_eq_deliver hsettled.stable hadv chunks rfl

/-- An integer that is cut, after a complete frame. -/
theorem decode_fragments_integer :
    (decode FloatText.quarter Limits.default (utf8 "+OK\r\n" ++ utf8 ":1")).2 = utf8 ":1" ∧
    feed (decode FloatText.quarter Limits.default) [utf8 "+OK\r\n:1", utf8 "2\r\n"] [] =
      deliver (decode FloatText.quarter Limits.default) (utf8 "+OK\r\n:12\r\n") := by
  obtain ⟨hdecided, -, hchunks⟩ := decode_fragments FloatText.quarter Limits.default
  have hvalue : decode FloatText.quarter Limits.default (utf8 "+OK\r\n") = (.ok (some (.simple "OK")), []) := rfl
  have hleft := hdecided (utf8 "+OK\r\n") (utf8 ":1") (by rw [hvalue]; exact nofun)
  rw [hvalue] at hleft
  exact ⟨by rw [hleft]; rfl, hchunks [utf8 "+OK\r\n:1", utf8 "2\r\n"]⟩

end GameStore
