import GameStore.RoundTrip

/-!
# Decoded frames and the limits

Every payload, array, set and push that is decoded is within the limits, and so is the
nesting. A map is allowed as many pairs as an array has elements, so that it may hold twice
as many as the limit.
-/

namespace GameStore

open Lib

section Items

variable {α : Type}

theorem parseItems_succ {p : Bytes → ℕ → Result α} {input : Bytes} {count pos n : ℕ} {items : List α} :
    parseItems p input (count + 1) pos = .ok (some (items, n)) ↔ ∃ a next as,
      p input pos = .ok (some (a, next)) ∧ parseItems p input count next = .ok (some (as, n)) ∧
        items = a :: as := by
  simp only [parseItems, Parsed.bind_eq_some, Except.ok.injEq, Option.some.injEq, Prod.mk.injEq]
  constructor
  · rintro ⟨a, next, hp, as, stop, hrest, rfl, rfl⟩
    exact ⟨a, next, as, hp, hrest, rfl⟩
  · rintro ⟨a, next, as, hp, hrest, rfl⟩
    exact ⟨a, next, hp, as, n, hrest, rfl, rfl⟩

theorem parseItems_succ_waits {p : Bytes → ℕ → Result α} {input : Bytes} {count pos : ℕ} :
    parseItems p input (count + 1) pos = .ok none ↔ p input pos = .ok none ∨ ∃ a next,
      p input pos = .ok (some (a, next)) ∧ parseItems p input count next = .ok none := by
  simp only [parseItems, Parsed.bind_eq_none, Except.ok.injEq, reduceCtorEq, and_false, exists_false,
    or_false]

end Items

/-! ## What a parser can read -/

/-- Whatever is read has the property. -/
def Yields {α : Type} (P : α → Prop) (x : Result α) : Prop := ∀ a n, x = .ok (some (a, n)) → P a

namespace Yields

variable {α β : Type} {P : α → Prop} {Q : β → Prop}

theorem refused (e : ProtocolError) : Yields P (.error e) := fun _ _ h => nomatch h

theorem value {a : α} (h : P a) (n : ℕ) : Yields P (.ok (some (a, n))) := by
  intro b n' hb
  simp only [Except.ok.injEq, Option.some.injEq, Prod.mk.injEq] at hb
  exact hb.1 ▸ h

theorem bind {p : Result β} {k : β → ℕ → Result α} (hp : Yields Q p) (hk : ∀ b n, Q b → Yields P (k b n)) :
    Yields P (p.bind k) := by
  intro a n h
  obtain ⟨b, next, hb, ha⟩ := Parsed.bind_eq_some.mp h
  exact hk b next (hp b next hb) a n ha

theorem trivial (p : Result β) : Yields (fun _ => True) p := fun _ _ _ => True.intro

theorem ite {c : Prop} [Decidable c] {p q : Result α} (hp : c → Yields P p) (hq : ¬ c → Yields P q) :
    Yields P (if c then p else q) := by
  split
  · exact hp ‹_›
  · exact hq ‹_›

theorem ofExcept {x : Except ProtocolError β} {f : β → α} {n : ℕ} (h : ∀ b, x = .ok b → P (f b)) :
    Yields P (x.map fun b => some (f b, n)) := by
  cases x with
  | error e => exact refused e
  | ok b => exact value (h b rfl) n

theorem fromLine {f : Bytes → Except ProtocolError α} (h : ∀ line a, f line = .ok a → P a) (input : Bytes)
    (start : ℕ) : Yields P (fromLine f input start) :=
  (trivial _).bind fun line _ _ => ofExcept fun a ha => h line a ha

theorem lineMap {x : Bytes → Except ProtocolError β} {make : β → α} (h : ∀ b, P (make b)) (input : Bytes)
    (start : ℕ) : Yields P (GameStore.fromLine (fun line => (x line).map make) input start) := by
  refine fromLine (fun line a ha => ?_) input start
  cases hx : x line with
  | error e =>
    rw [hx] at ha
    cases ha
  | ok b =>
    rw [hx] at ha
    exact Except.ok.inj ha ▸ h b

theorem parseItems {p : Bytes → ℕ → Result α} {input : Bytes} (h : ∀ pos, Yields P (p input pos))
    (count pos : ℕ) : Yields (fun items => items.length = count ∧ ∀ a ∈ items, P a)
      (parseItems p input count pos) := by
  induction count generalizing pos with
  | zero => exact value ⟨rfl, by simp⟩ pos
  | succ count ih =>
    refine (h pos).bind fun a next ha => (ih next).bind fun as stop has => value ⟨?_, ?_⟩ stop
    · rw [List.length_cons, has.1]
    · intro b hb
      obtain rfl | hb := List.mem_cons.mp hb
      · exact ha
      · exact has.2 b hb

end Yields

/-! ## What each type byte announces -/

/-- The type byte of a payload or an aggregate, and the limits of its kind as the code
checks them. -/
def Frame.Announced (limits : Limits) (b : UInt8) : Frame → Prop
  | .bulk payload => b = 36 ∧ payload.length ≤ limits.maxBulkLen
  | .bulkError s => b = 33 ∧ (utf8 s).length ≤ limits.maxBulkLen
  | .verbatim _ data => b = 61 ∧ 3 + 1 + data.length ≤ limits.maxBulkLen
  | .array items => b = 42 ∧ items.length ≤ limits.maxArrayLen
  | .set items => b = 126 ∧ items.length ≤ limits.maxArrayLen
  | .push items => b = 62 ∧ items.length ≤ limits.maxArrayLen
  | .map pairs => b = 37 ∧ pairs.length ≤ limits.maxArrayLen
  | _ => True

section Limits

variable {ft : FloatText} {limits : Limits}

theorem utf8_of_strFrom {bytes : Bytes} {s : String} (h : strFrom bytes = .ok s) : utf8 s = bytes := by
  rw [strFrom, String.fromUTF8?] at h
  split at h
  · rename_i heq
    split at heq
    · cases heq
      cases h
      simp [utf8, String.fromUTF8]
    · cases heq
  · cases h

theorem yields_readPayload (input : Bytes) (start len : ℕ) (msg : String) :
    Yields (fun payload => payload.length = len) (readPayload input start len msg) := by
  rw [readPayload]
  refine .ite (fun _ _ _ h => nomatch h) fun hlen => .ite (fun _ => .refused _) fun _ => .value ?_ _
  rw [slice, List.length_drop, List.length_take]
  omega

theorem parseBulk_announced (isError : Bool) (input : Bytes) (start : ℕ) :
    Yields (Frame.Announced limits (if isError then 33 else 36)) (parseBulk limits isError input start) := by
  refine (Yields.trivial _).bind fun len next _ => .ite (fun _ => .value trivial _) fun _ =>
    .ite (fun _ => .refused _) fun _ => .ite (fun _ => .refused _) fun hmax =>
      (yields_readPayload input next _ _).bind fun payload stop hlen => ?_
  have hle : payload.length ≤ limits.maxBulkLen := by omega
  cases isError with
  | true => exact .ofExcept fun s hs => ⟨rfl, utf8_of_strFrom hs ▸ hle⟩
  | false => exact .value ⟨rfl, hle⟩ stop

theorem parseVerbatim_announced (input : Bytes) (start : ℕ) :
    Yields (Frame.Announced limits 61) (parseVerbatim limits input start) := by
  refine (Yields.trivial _).bind fun len next _ => .ite (fun _ => .refused _) fun _ =>
    .ite (fun _ => .refused _) fun hmax => (yields_readPayload input next _ _).bind fun body stop hlen => ?_
  split
  · rename_i a b c colon data
    refine .ite (fun _ => .refused _) fun _ => .value ⟨rfl, ?_⟩ stop
    simp only [List.length_cons] at hlen
    omega
  · exact .refused _

def Aggregate.typeByte : Aggregate → UInt8
  | array => 42
  | set => 126
  | push => 62

theorem parseAggregate_announced (parse : Bytes → ℕ → Result Frame) (kind : Aggregate) (input : Bytes)
    (start : ℕ) :
    Yields (Frame.Announced limits kind.typeByte) (parseAggregate limits parse kind input start) := by
  refine (Yields.trivial _).bind fun count pos _ => .ite (fun _ => .ite (fun _ => .value trivial _) fun _ =>
    .refused _) fun _ => .ite (fun _ => .refused _) fun _ => .ite (fun _ => .refused _) fun hmax =>
      (Yields.parseItems (fun _ => Yields.trivial _) _ pos).bind fun items stop hitems => ?_
  have hle : items.length ≤ limits.maxArrayLen := by omega
  cases kind with
  | array => exact .value ⟨rfl, hle⟩ stop
  | set => exact .value ⟨rfl, hle⟩ stop
  | push => exact .value ⟨rfl, hle⟩ stop

theorem parseMap_announced (parse : Bytes → ℕ → Result Frame) (input : Bytes) (start : ℕ) :
    Yields (Frame.Announced limits 37) (parseMap limits parse input start) := by
  refine (Yields.trivial _).bind fun count pos _ => .ite (fun _ => .refused _) fun _ =>
    .ite (fun _ => .refused _) fun hmax =>
      (Yields.parseItems (fun _ => Yields.trivial _) _ pos).bind fun pairs stop hpairs =>
        .value ⟨rfl, ?_⟩ stop
  omega

theorem parseBody_announced {parse : Bytes → ℕ → Result Frame} {b : UInt8} (input : Bytes) (start : ℕ) :
    Yields (Frame.Announced limits b) (parseBody ft limits parse b input start) := by
  unfold parseBody
  split
  · exact .lineMap (fun _ => trivial) input start
  · exact .lineMap (fun _ => trivial) input start
  · exact .lineMap (fun _ => trivial) input start
  · exact .lineMap (fun _ => trivial) input start
  · refine .fromLine (fun line a ha => ?_) input start
    split at ha
    · cases ha
    · exact Except.ok.inj ha ▸ trivial
  · refine .fromLine (fun line a ha => ?_) input start
    split at ha
    · exact Except.ok.inj ha ▸ trivial
    split at ha
    · exact Except.ok.inj ha ▸ trivial
    · cases ha
  · refine .fromLine (fun line a ha => ?_) input start
    cases hs : strFrom line with
    | error e =>
      rw [hs] at ha
      cases ha
    | ok s =>
      rw [hs] at ha
      cases hd : doubleFrom ft s with
      | error e =>
        simp only [Except.bind, hd] at ha
        cases ha
      | ok d =>
        simp only [Except.bind, hd] at ha
        exact Except.ok.inj ha ▸ trivial
  · exact parseBulk_announced false input start
  · exact parseBulk_announced true input start
  · exact parseVerbatim_announced input start
  · exact parseAggregate_announced parse .array input start
  · exact parseAggregate_announced parse .set input start
  · exact parseAggregate_announced parse .push input start
  · exact parseMap_announced parse input start
  · exact .refused _

/-! ## The elements and where they stand -/

/-- How many values follow a header. -/
def elementCount (b : UInt8) (count : ℕ) : ℕ :=
  if b = 37 then 2 * count else if b = 42 ∨ b = 126 ∨ b = 62 then count else 0

theorem parseItems_pairs {parse : Bytes → ℕ → Result Frame} {input : Bytes} {count pos stop : ℕ}
    {pairs : List (Frame × Frame)} (h : parseItems (parsePair parse) input count pos = .ok (some (pairs, stop))) :
    parseItems parse input (2 * count) pos = .ok (some (pairs.flatMap fun p => [p.1, p.2], stop)) := by
  induction count generalizing pos pairs with
  | zero =>
    simp only [parseItems, Except.ok.injEq, Option.some.injEq, Prod.mk.injEq] at h
    rw [← h.1, ← h.2]
    rfl
  | succ count ih =>
    obtain ⟨p, next, rest, hp, hrest, rfl⟩ := parseItems_succ.mp h
    obtain ⟨key, mid, hkey, hrestp⟩ := Parsed.bind_eq_some.mp hp
    obtain ⟨val, last, hval, heq⟩ := Parsed.bind_eq_some.mp hrestp
    simp only [Except.ok.injEq, Option.some.injEq, Prod.mk.injEq] at heq
    obtain ⟨rfl, rfl⟩ := heq
    exact parseItems_succ.mpr ⟨key, mid, _, hkey, parseItems_succ.mpr ⟨val, last, _, hval, ih hrest, rfl⟩, rfl⟩

/-- A property of the items is one of the places they are read from. -/
theorem parseItems_forall {α : Type} {p : Bytes → ℕ → Result α} {input : Bytes} {P : α → Prop} {Q : ℕ → Prop}
    (h : ∀ pos a next, p input pos = .ok (some (a, next)) → (P a ↔ Q pos)) {count pos stop : ℕ} {items : List α}
    (hitems : parseItems p input count pos = .ok (some (items, stop))) :
    (∀ a ∈ items, P a) ↔
      ∀ n < count, ∀ as next, parseItems p input n pos = .ok (some (as, next)) → Q next := by
  induction count generalizing pos items with
  | zero =>
    simp only [parseItems, Except.ok.injEq, Option.some.injEq, Prod.mk.injEq] at hitems
    simp [← hitems.1]
  | succ count ih =>
    obtain ⟨a, next, as, ha, has, rfl⟩ := parseItems_succ.mp hitems
    rw [List.forall_mem_cons, h pos a next ha, ih has]
    constructor
    · rintro ⟨hfirst, hrest⟩ n hn bs stop' hbs
      cases n with
      | zero =>
        simp only [parseItems, Except.ok.injEq, Option.some.injEq, Prod.mk.injEq] at hbs
        exact hbs.2 ▸ hfirst
      | succ n =>
        obtain ⟨a', next', bs', ha', hbs', -⟩ := parseItems_succ.mp hbs
        rw [ha] at ha'
        simp only [Except.ok.injEq, Option.some.injEq, Prod.mk.injEq] at ha'
        exact hrest n (by omega) bs' stop' (ha'.2 ▸ hbs')
    · intro hall
      refine ⟨hall 0 (by omega) [] pos rfl, fun n hn bs stop' hbs => ?_⟩
      exact hall (n + 1) (by omega) (a :: bs) stop' (parseItems_succ.mpr ⟨a, next, bs, ha, hbs, rfl⟩)

theorem Frame.Announced.children_eq_nil {b : UInt8} {f : Frame} (h : f.Announced limits b)
    (hb : b ≠ 37 ∧ b ≠ 42 ∧ b ≠ 126 ∧ b ≠ 62) : f.children = [] := by
  cases f with
  | array items => exact absurd h.1 hb.2.1
  | set items => exact absurd h.1 hb.2.2.1
  | push items => exact absurd h.1 hb.2.2.2
  | map pairs => exact absurd h.1 hb.1
  | _ => rfl

theorem parseAggregate_children {parse : Bytes → ℕ → Result Frame} {kind : Aggregate} {input : Bytes}
    {start stop : ℕ} {f : Frame} (h : parseAggregate limits parse kind input start = .ok (some (f, stop))) :
    ∃ count pos, parseHeader input start = .ok (some (count, pos)) ∧
      parseItems parse input count.toNat pos = .ok (some (f.children, stop)) := by
  obtain ⟨count, pos, hhdr, h⟩ := Parsed.bind_eq_some.mp h
  refine ⟨count, pos, hhdr, ?_⟩
  split at h
  · rename_i hnull
    split at h
    · simp only [Except.ok.injEq, Option.some.injEq, Prod.mk.injEq] at h
      obtain ⟨rfl, rfl⟩ := h
      rw [hnull]
      rfl
    · cases h
  split at h
  · cases h
  split at h
  · cases h
  obtain ⟨items, stop', hitems, heq⟩ := Parsed.bind_eq_some.mp h
  simp only [Except.ok.injEq, Option.some.injEq, Prod.mk.injEq] at heq
  obtain ⟨rfl, rfl⟩ := heq
  cases kind with
  | array => exact hitems
  | set => exact hitems
  | push => exact hitems

theorem parseMap_eq_some {parse : Bytes → ℕ → Result Frame} {input : Bytes} {start stop : ℕ} {f : Frame}
    (h : parseMap limits parse input start = .ok (some (f, stop))) :
    ∃ count pos pairs, parseHeader input start = .ok (some (count, pos)) ∧ f = .map pairs ∧
      pairs.length = count.toNat ∧
      parseItems (parsePair parse) input count.toNat pos = .ok (some (pairs, stop)) := by
  obtain ⟨count, pos, hhdr, h⟩ := Parsed.bind_eq_some.mp h
  split at h
  · cases h
  split at h
  · cases h
  obtain ⟨pairs, stop', hpairs, heq⟩ := Parsed.bind_eq_some.mp h
  simp only [Except.ok.injEq, Option.some.injEq, Prod.mk.injEq] at heq
  obtain ⟨rfl, rfl⟩ := heq
  exact ⟨count, pos, pairs, hhdr, rfl,
    (Yields.parseItems (fun _ => Yields.trivial _) _ pos _ _ hpairs).1, hpairs⟩

/-- The frames inside are the values that follow the header. -/
theorem parseBody_children {parse : Bytes → ℕ → Result Frame} {b : UInt8} {input : Bytes} {start stop : ℕ}
    {f : Frame} (h : parseBody ft limits parse b input start = .ok (some (f, stop))) :
    (b ≠ 37 ∧ b ≠ 42 ∧ b ≠ 126 ∧ b ≠ 62) ∧ f.children = [] ∨
    ∃ count pos, parseHeader input start = .ok (some (count, pos)) ∧
      parseItems parse input (elementCount b count.toNat) pos = .ok (some (f.children, stop)) := by
  by_cases hmap : b = 37
  · subst hmap
    obtain ⟨count, pos, pairs, hhdr, rfl, -, hpairs⟩ := parseMap_eq_some h
    exact .inr ⟨count, pos, hhdr, parseItems_pairs hpairs⟩
  by_cases harray : b = 42
  · subst harray
    exact .inr (parseAggregate_children h)
  by_cases hset : b = 126
  · subst hset
    exact .inr (parseAggregate_children h)
  by_cases hpush : b = 62
  · subst hpush
    exact .inr (parseAggregate_children h)
  · have hb := And.intro hmap (And.intro harray (And.intro hset hpush))
    exact .inl ⟨hb, (parseBody_announced input start f stop h).children_eq_nil hb⟩

/-! ## Limits as they are documented -/

/-- A payload with its format, and the number of elements; a map counts twice its pairs. -/
def Frame.WithinLimits (limits : Limits) : Frame → Prop
  | .bulk payload => payload.length ≤ limits.maxBulkLen
  | .bulkError s => (utf8 s).length ≤ limits.maxBulkLen
  | .verbatim _ data => 3 + 1 + data.length ≤ limits.maxBulkLen
  | .array items => items.length ≤ limits.maxArrayLen
  | .set items => items.length ≤ limits.maxArrayLen
  | .push items => items.length ≤ limits.maxArrayLen
  | .map pairs => pairs.length * 2 ≤ limits.maxArrayLen
  | _ => True

/-- No map header announces more than half as many pairs as an array may have elements: not
the one at `start`, if there is one, and none at the place of a value it announces. -/
def MapHeadersFit (ft : FloatText) (limits : Limits) (input : Bytes) : ℕ → ℕ → Prop
  | 0, _ => True
  | levels + 1, start => ∀ b count pos, input[start]? = some b →
    parseHeader input (start + 1) = .ok (some (count, pos)) →
    (b = 37 → count.toNat * 2 ≤ limits.maxArrayLen) ∧
    ∀ n < elementCount b count.toNat, ∀ items next,
      parseItems (parseFrame ft limits levels) input n pos = .ok (some (items, next)) →
      MapHeadersFit ft limits input levels next

theorem Frame.everywhere_iff {P : Frame → Prop} {f : Frame} :
    f.Everywhere P ↔ P f ∧ ∀ g ∈ f.children, g.Everywhere P := by
  constructor
  · rintro ⟨here, below⟩
    exact ⟨here, below⟩
  · rintro ⟨here, below⟩
    exact ⟨here, below⟩

theorem parseFrame_succ_eq_some {levels start stop : ℕ} {input : Bytes} {f : Frame}
    (h : parseFrame ft limits (levels + 1) input start = .ok (some (f, stop))) :
    ∃ b, input[start]? = some b ∧
      parseBody ft limits (parseFrame ft limits levels) b input (start + 1) = .ok (some (f, stop)) := by
  rw [parseFrame, byteThen] at h
  split at h
  · cases h
  · exact ⟨_, ‹_›, h⟩

theorem parseBody_withinLimits {parse : Bytes → ℕ → Result Frame} {b : UInt8} {input : Bytes}
    {start stop : ℕ} {f : Frame} (h : parseBody ft limits parse b input start = .ok (some (f, stop))) :
    f.WithinLimits limits ↔
      ∀ count pos, parseHeader input start = .ok (some (count, pos)) → b = 37 →
        count.toNat * 2 ≤ limits.maxArrayLen := by
  by_cases hmap : b = 37
  · subst hmap
    obtain ⟨count, pos, pairs, hhdr, rfl, hlen, -⟩ := parseMap_eq_some h
    constructor
    · intro hwithin count' pos' hhdr' _
      rw [hhdr] at hhdr'
      simp only [Except.ok.injEq, Option.some.injEq, Prod.mk.injEq] at hhdr'
      rw [← hhdr'.1, ← hlen]
      exact hwithin
    · intro hfit
      have hle := hfit count pos hhdr rfl
      rwa [← hlen] at hle
  · refine ⟨fun _ _ _ _ hb => absurd hb hmap, fun _ => ?_⟩
    have hannounced := parseBody_announced input start f stop h
    cases f with
    | map pairs => exact absurd hannounced.1 hmap
    | bulk payload => exact hannounced.2
    | bulkError s => exact hannounced.2
    | verbatim format data => exact hannounced.2
    | array items => exact hannounced.2
    | set items => exact hannounced.2
    | push items => exact hannounced.2
    | _ => trivial

theorem parseFrame_nested {levels start stop : ℕ} {input : Bytes} {f : Frame}
    (h : parseFrame ft limits (levels + 1) input start = .ok (some (f, stop))) : f.Nested levels := by
  induction levels generalizing start stop f with
  | zero =>
    -- Below the last level nothing can be read, so that there are no elements.
    obtain ⟨b, -, hbody⟩ := parseFrame_succ_eq_some h
    refine .leaf ?_
    rcases parseBody_children hbody with ⟨-, hleaf⟩ | ⟨count, pos, -, hitems⟩
    · exact hleaf
    · cases hcount : elementCount b count.toNat with
      | zero =>
        rw [hcount] at hitems
        simp only [parseItems, Except.ok.injEq, Option.some.injEq, Prod.mk.injEq] at hitems
        exact hitems.1.symm
      | succ n =>
        rw [hcount] at hitems
        obtain ⟨g, next, -, hg, -⟩ := parseItems_succ.mp hitems
        cases hg
  | succ levels ih =>
    obtain ⟨b, -, hbody⟩ := parseFrame_succ_eq_some h
    rcases parseBody_children hbody with ⟨-, hleaf⟩ | ⟨count, pos, -, hitems⟩
    · exact .leaf hleaf
    · exact .node (Yields.parseItems (fun pos g next hg => ih hg) _ pos _ _ hitems).2

theorem parseFrame_withinLimits {levels start stop : ℕ} {input : Bytes} {f : Frame}
    (h : parseFrame ft limits levels input start = .ok (some (f, stop))) :
    f.Everywhere (Frame.WithinLimits limits) ↔ MapHeadersFit ft limits input levels start := by
  induction levels generalizing start stop f with
  | zero => cases h
  | succ levels ih =>
    obtain ⟨b, hb, hbody⟩ := parseFrame_succ_eq_some h
    have hplaces : (∀ g ∈ f.children, g.Everywhere (Frame.WithinLimits limits)) ↔
        ∀ count pos, parseHeader input (start + 1) = .ok (some (count, pos)) →
          ∀ n < elementCount b count.toNat, ∀ items next,
            parseItems (parseFrame ft limits levels) input n pos = .ok (some (items, next)) →
            MapHeadersFit ft limits input levels next := by
      rcases parseBody_children hbody with ⟨⟨hmap, harray, hset, hpush⟩, hleaf⟩ | ⟨count, pos, hhdr, hitems⟩
      · simp [hleaf, elementCount, hmap, harray, hset, hpush]
      · rw [parseItems_forall (fun pos g next hg => ih hg) hitems]
        simp [hhdr]
    rw [Frame.everywhere_iff, parseBody_withinLimits hbody, hplaces, MapHeadersFit]
    constructor
    · rintro ⟨hfit, hrest⟩ b' count pos hb' hhdr
      rw [hb] at hb'
      cases hb'
      exact ⟨hfit count pos hhdr, hrest count pos hhdr⟩
    · intro hall
      exact ⟨fun count pos hhdr => (hall b count pos hb hhdr).1,
        fun count pos hhdr => (hall b count pos hb hhdr).2⟩

end Limits

/-- A decoded frame is within the documented limits, and within the nesting, exactly if no
map header announces more pairs than half the array limit. -/
theorem decoded_within_limits_iff (ft : FloatText) (limits : Limits) (buf : Bytes) (f : Frame) (rest : Bytes)
    (h : decode ft limits buf = (.ok (some f), rest)) :
    f.Everywhere (Frame.WithinLimits limits) ∧ f.Nested limits.maxDepth ↔
      MapHeadersFit ft limits buf (limits.maxDepth + 1) 0 := by
  obtain ⟨n, hframe, -⟩ := advance_eq_some.mp h
  rw [← parseFrame_withinLimits hframe]
  exact and_iff_left (parseFrame_nested hframe)

/-- One element to an array, and no other limit below the default. -/
def oneElement : Limits := { Limits.default with maxArrayLen := 1 }

def twoElements : Limits := { Limits.default with maxArrayLen := 2 }

def onePair : Bytes := utf8 "%1\r\n+a\r\n+b\r\n"

/-- A map of one pair, whose value is an array with a payload in it. -/
def pairOfArray : Bytes := utf8 "%1\r\n+a\r\n*2\r\n$3\r\nb\r\n\r\n:5\r\n+rest"

theorem decode_pairOfArray : decode FloatText.quarter twoElements pairOfArray =
    (.ok (some (.map [(.simple "a", .array [.bulk (98 :: CRLF), .integer 5])])), utf8 "+rest") := by
  with_unfolding_all rfl

/-- The map has as many elements as it may have. -/
theorem decoded_within_limits_pairOfArray :
    let f := Frame.map [(.simple "a", .array [.bulk (98 :: CRLF), .integer 5])]
    f.Everywhere (Frame.WithinLimits twoElements) ∧ f.Nested 128 ∧
      MapHeadersFit FloatText.quarter twoElements pairOfArray 129 0 := by
  intro f
  have hiff := decoded_within_limits_iff FloatText.quarter twoElements _ _ _ decode_pairOfArray
  have hbulk : (98 :: CRLF).length ≤ 512 * 1024 * 1024 := by decide +kernel
  have hsizes : f.Everywhere (Frame.WithinLimits twoElements) := by
    refine ⟨le_refl 2, List.forall_mem_cons.mpr ⟨.leaf trivial rfl, List.forall_mem_singleton.mpr ?_⟩⟩
    exact ⟨le_refl 2, List.forall_mem_cons.mpr ⟨.leaf hbulk rfl,
      List.forall_mem_singleton.mpr (.leaf trivial rfl)⟩⟩
  have hnested : f.Nested 128 := by
    refine .node (List.forall_mem_cons.mpr ⟨.leaf rfl, List.forall_mem_singleton.mpr (.node ?_)⟩)
    exact List.forall_mem_cons.mpr ⟨.leaf rfl, List.forall_mem_singleton.mpr (.leaf rfl)⟩
  exact ⟨hsizes, hnested, hiff.mp ⟨hsizes, hnested⟩⟩

/-- Two elements where one is allowed. -/
theorem decoded_map_exceeds_limit : decode FloatText.quarter oneElement onePair =
      (.ok (some (.map [(.simple "a", .simple "b")])), []) ∧
    ¬ (Frame.map [(.simple "a", .simple "b")]).Everywhere (Frame.WithinLimits oneElement) := by
  refine ⟨by rfl, fun h => ?_⟩
  have hwithin : 1 * 2 ≤ 1 := (Frame.everywhere_iff.mp h).1
  omega

end GameStore
