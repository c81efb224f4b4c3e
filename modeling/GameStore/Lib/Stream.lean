import Mathlib

/-!
# Decoding a stream that arrives in chunks

A decoder looks at the bytes received so far. It returns an item with the number
of symbols the item takes, fails, or asks for more. `drain` calls it until it asks
for more or fails; `feed` does so after each chunk.
-/

namespace GameStore.Lib

variable {σ ε α β : Type}

/-- A value and the position after it, or a failure, or more input is needed. -/
abbrev Parsed (ε α : Type) := Except ε (Option (α × ℕ))

namespace Parsed

/-- Go on with a value and the position after it. -/
def bind (x : Parsed ε α) (f : α → ℕ → Parsed ε β) : Parsed ε β :=
  match x with
  | .error e => .error e
  | .ok none => .ok none
  | .ok (some (a, next)) => f a next

@[simp] theorem bind_error (e : ε) (f : α → ℕ → Parsed ε β) : bind (.error e) f = .error e := rfl

@[simp] theorem bind_none (f : α → ℕ → Parsed ε β) : bind (.ok none) f = .ok none := rfl

@[simp] theorem bind_some (a : α) (next : ℕ) (f : α → ℕ → Parsed ε β) :
    bind (.ok (some (a, next))) f = f a next := rfl

theorem bind_eq_some {x : Parsed ε α} {f : α → ℕ → Parsed ε β} {r : β × ℕ} :
    bind x f = .ok (some r) ↔ ∃ a next, x = .ok (some (a, next)) ∧ f a next = .ok (some r) := by
  rcases x with e | _ | ⟨a, next⟩
  · simp
  · simp
  · simp

theorem bind_eq_none {x : Parsed ε α} {f : α → ℕ → Parsed ε β} :
    bind x f = .ok none ↔ x = .ok none ∨ ∃ a next, x = .ok (some (a, next)) ∧ f a next = .ok none := by
  rcases x with e | _ | ⟨a, next⟩
  · simp
  · simp
  · simp

/-- The value is there, or there is an error. -/
def Decided (x : Parsed ε α) : Prop := x ≠ .ok none

end Parsed

/-! ## Decoders that do not change their mind -/

/-- Once decided, more input does not change the outcome. -/
def Stable (p : List σ → Parsed ε α) : Prop := ∀ b c, (p b).Decided → p (b ++ c) = p b

/-- Stable, and what is read lies between `start` and the end of the input. -/
structure Settled (start : ℕ) (p : List σ → Parsed ε α) : Prop where
  stable : Stable p
  within : ∀ b a next, start ≤ b.length → p b = .ok (some (a, next)) → start ≤ next ∧ next ≤ b.length

namespace Settled

variable {start : ℕ}

theorem error (e : ε) : Settled start fun _ : List σ => (.error e : Parsed ε α) :=
  ⟨fun _ _ _ => rfl, fun _ _ _ _ h => nomatch h⟩

theorem value (a : α) : Settled start fun _ : List σ => (.ok (some (a, start)) : Parsed ε α) := by
  refine ⟨fun _ _ _ => rfl, fun b a' next hstart h => ?_⟩
  cases h
  exact ⟨le_rfl, hstart⟩

/-- A computation on what was read; it needs no further input. -/
theorem ofExcept (x : Except ε α) (f : α → β) :
    Settled start fun _ : List σ => (x.map fun a => some (f a, start) : Parsed ε β) := by
  cases x with
  | error e => exact error e
  | ok a => exact value (f a)

theorem ite {c : Prop} [Decidable c] {p q : List σ → Parsed ε α} (hp : Settled start p)
    (hq : Settled start q) : Settled start fun b => if c then p b else q b := by
  by_cases h : c
  · simp only [if_pos h]
    exact hp
  · simp only [if_neg h]
    exact hq

theorem bind {p : List σ → Parsed ε α} {q : α → ℕ → List σ → Parsed ε β} (hp : Settled start p)
    (hq : ∀ a next, Settled next (q a next)) :
    Settled start fun b => (p b).bind fun a next => q a next b where
  stable := by
    intro b c hd
    have hdp : (p b).Decided := by
      intro h
      simp only [h, Parsed.bind_none] at hd
      exact hd rfl
    dsimp only at hd ⊢
    rw [hp.stable b c hdp]
    rcases hx : p b with e | _ | ⟨a, next⟩
    · rfl
    · rfl
    · rw [hx] at hd
      exact (hq a next).stable b c hd
  within := by
    intro b z stop hstart h
    rcases hx : p b with e | _ | ⟨a, next⟩
    · rw [hx] at h
      cases h
    · rw [hx] at h
      cases h
    · rw [hx] at h
      obtain ⟨hle, hlen⟩ := hp.within b a next hstart hx
      obtain ⟨hle', hlen'⟩ := (hq a next).within b z stop hlen h
      exact ⟨hle.trans hle', hlen'⟩

end Settled

/-- An item takes at least one symbol, and none that is not there. -/
def Advances (start : ℕ) (p : List σ → Parsed ε α) : Prop :=
  ∀ b a next, p b = .ok (some (a, next)) → start < next ∧ next ≤ b.length

/-! ## Decoders

A decoder looks at the buffer, and takes what it decoded off the front. -/

/-- The outcome, and the buffer after it: an item is split off, and otherwise the buffer
stays as it is. -/
abbrev Polled (σ ε α : Type) := Except ε (Option α) × List σ

def advance (p : List σ → Parsed ε α) (buf : List σ) : Polled σ ε α :=
  match p buf with
  | .ok (some (a, next)) => (.ok (some a), buf.drop next)
  | .ok none => (.ok none, buf)
  | .error e => (.error e, buf)

section Advance

variable {p : List σ → Parsed ε α} {buf : List σ}

theorem advance_some {a : α} {next : ℕ} (h : p buf = .ok (some (a, next))) :
    advance p buf = (.ok (some a), buf.drop next) := by
  rw [advance, h]

theorem advance_none (h : p buf = .ok none) : advance p buf = (.ok none, buf) := by
  rw [advance, h]

theorem advance_error {e : ε} (h : p buf = .error e) : advance p buf = (.error e, buf) := by
  rw [advance, h]

theorem advance_eq_some {a : α} {rest : List σ} :
    advance p buf = (.ok (some a), rest) ↔ ∃ n, p buf = .ok (some (a, n)) ∧ rest = buf.drop n := by
  constructor
  · intro h
    rcases hp : p buf with e | _ | ⟨b, n⟩
    · rw [advance_error hp] at h
      cases h
    · rw [advance_none hp] at h
      cases h
    · rw [advance_some hp] at h
      simp only [Prod.mk.injEq, Except.ok.injEq, Option.some.injEq] at h
      exact ⟨n, h.1 ▸ rfl, h.2.symm⟩
  · rintro ⟨n, hp, rfl⟩
    exact advance_some hp

theorem advance_eq_none : advance p buf = (.ok none, buf) ↔ p buf = .ok none := by
  refine ⟨fun h => ?_, advance_none⟩
  rcases hp : p buf with e | _ | ⟨b, n⟩
  · rw [advance_error hp] at h
    cases h
  · rfl
  · rw [advance_some hp] at h
    cases h

theorem advance_left (h : (advance p buf).1 = .ok none) : (advance p buf).2 = buf := by
  rcases hb : p buf with e | _ | ⟨a, next⟩
  · rw [advance_error hb]
  · rw [advance_none hb]
  · rw [advance_some hb] at h
    cases h

end Advance

/-! ## Runs -/

section Runs

variable (decode : List σ → Polled σ ε α)

/-- At most `n` items from the front, and what is left. -/
def drainN : ℕ → List σ → List α × List σ
  | 0, buf => ([], buf)
  | n + 1, buf => match decode buf with
    | (.ok (some a), left) => (a :: (drainN n left).1, (drainN n left).2)
    | (_, left) => ([], left)

/-- Items are decoded until more input is needed or decoding fails. -/
def drain (buf : List σ) : List α × List σ := drainN decode (buf.length + 1) buf

def failure (buf : List σ) : Option ε :=
  match (decode buf).1 with
  | .error e => some e
  | .ok _ => none

/-- The items of a buffer and the error they end with, if they do. -/
def deliver (buf : List σ) : List α × Option ε :=
  ((drain decode buf).1, failure decode (drain decode buf).2)

/-- Each chunk is appended to what is left, and as much as possible is decoded; an
error ends it. -/
def feed : List (List σ) → List σ → List α × Option ε
  | [], _ => ([], none)
  | c :: cs, buf => match failure decode (drain decode (buf ++ c)).2 with
    | some e => ((drain decode (buf ++ c)).1, some e)
    | none => ((drain decode (buf ++ c)).1 ++ (feed cs (drain decode (buf ++ c)).2).1,
        (feed cs (drain decode (buf ++ c)).2).2)

/-- An error met before the last chunk is an error with all that follows, too. -/
def Unhurried : List (List σ) → List σ → Prop
  | [], _ => True
  | c :: cs, buf => match failure decode (drain decode (buf ++ c)).2 with
    | some e => failure decode ((drain decode (buf ++ c)).2 ++ cs.flatten) = some e
    | none => Unhurried cs (drain decode (buf ++ c)).2

end Runs

section Parser

variable {p : List σ → Parsed ε α}

/-- More input leaves a decoded item as it is. -/
def KeepsItems (p : List σ → Parsed ε α) : Prop :=
  ∀ b c a next, p b = .ok (some (a, next)) → p (b ++ c) = .ok (some (a, next))

theorem Stable.keepsItems (h : Stable p) : KeepsItems p := by
  intro b c a next hb
  rw [h b c (by rw [hb]; exact nofun), hb]

theorem Stable.error (h : Stable p) {b : List σ} {e : ε} (hb : p b = .error e) (c : List σ) :
    p (b ++ c) = .error e := by
  rw [h b c (by rw [hb]; exact nofun), hb]

theorem failure_eq_some {buf : List σ} {e : ε} : failure (advance p) buf = some e ↔ p buf = .error e := by
  unfold failure
  rcases h : p buf with e' | _ | ⟨a, next⟩
  · simp [advance_error h]
  · simp [advance_none h]
  · simp [advance_some h]

/-- An outcome stays, and what comes in later is left in the buffer. -/
theorem Stable.advance_append (h : Stable p) (hadv : Advances 0 p) {b : List σ}
    (hd : (advance p b).1 ≠ .ok none) (c : List σ) :
    advance p (b ++ c) = ((advance p b).1, (advance p b).2 ++ c) := by
  rcases hb : p b with e | _ | ⟨a, next⟩
  · rw [advance_error hb, advance_error (h.error hb c)]
  · rw [advance_none hb] at hd
    exact absurd rfl hd
  · have hdrop : (b ++ c).drop next = b.drop next ++ c :=
      List.drop_append_of_le_length (hadv b a next hb).2
    rw [advance_some hb, advance_some (h.keepsItems b c a next hb), hdrop]

/-- With items that take something, enough turns are enough. -/
theorem drainN_eq_drain (hadv : Advances 0 p) {n : ℕ} {buf : List σ} (hn : buf.length < n) :
    drainN (advance p) n buf = drain (advance p) buf := by
  suffices h : ∀ n m (buf : List σ), buf.length < n → buf.length < m →
      drainN (advance p) n buf = drainN (advance p) m buf from h n _ buf hn (Nat.lt_succ_self _)
  intro n
  induction n with
  | zero => exact fun m buf h => absurd h (Nat.not_lt_zero _)
  | succ n ih =>
    intro m buf hn hm
    obtain ⟨m, rfl⟩ : ∃ m', m = m' + 1 := ⟨m - 1, by omega⟩
    rw [drainN, drainN]
    rcases hd : p buf with e | _ | ⟨a, next⟩
    · rw [advance_error hd]
    · rw [advance_none hd]
    · obtain ⟨hpos, hle⟩ := hadv buf a next hd
      have hlen : (buf.drop next).length = buf.length - next := List.length_drop
      rw [advance_some hd]
      dsimp only
      rw [ih m (buf.drop next) (by omega) (by omega)]

theorem drain_stuck {buf : List σ} (h : ∀ r, p buf ≠ .ok (some r)) : drain (advance p) buf = ([], buf) := by
  rw [drain, drainN]
  rcases hd : p buf with e | _ | r
  · rw [advance_error hd]
  · rw [advance_none hd]
  · exact absurd hd (h r)

theorem drain_some (hadv : Advances 0 p) {buf : List σ} {a : α} {next : ℕ}
    (h : p buf = .ok (some (a, next))) :
    drain (advance p) buf =
      (a :: (drain (advance p) (buf.drop next)).1, (drain (advance p) (buf.drop next)).2) := by
  obtain ⟨hpos, hle⟩ := hadv buf a next h
  have hlen : (buf.drop next).length < buf.length := by
    rw [List.length_drop]
    omega
  rw [← drainN_eq_drain hadv hlen]
  nth_rewrite 1 [drain, drainN]
  rw [advance_some h]

/-- Induction over the items at the front of a buffer. -/
theorem drain_induction (hadv : Advances 0 p) {P : List σ → Prop}
    (hstuck : ∀ buf, (∀ r, p buf ≠ .ok (some r)) → P buf)
    (hsome : ∀ buf a next, p buf = .ok (some (a, next)) → P (buf.drop next) → P buf)
    (buf : List σ) : P buf := by
  induction hn : buf.length using Nat.strong_induction_on generalizing buf with
  | _ n ih =>
    rcases hd : p buf with e | _ | ⟨a, next⟩
    · exact hstuck buf fun r h => nomatch hd.symm.trans h
    · exact hstuck buf fun r h => nomatch hd.symm.trans h
    · obtain ⟨hpos, hle⟩ := hadv buf a next hd
      refine hsome buf a next hd (ih _ ?_ _ rfl)
      rw [List.length_drop]
      omega

/-- What is left holds no further item. -/
theorem decode_left (hadv : Advances 0 p) (buf : List σ) (r : α × ℕ) :
    p (drain (advance p) buf).2 ≠ .ok (some r) := by
  induction buf using drain_induction hadv with
  | hstuck buf h =>
    rw [drain_stuck h]
    exact h r
  | hsome buf a next hs ih =>
    rw [drain_some hadv hs]
    exact ih

/-- Draining a part first, and then the rest with what was left. -/
theorem drain_append (hkeep : KeepsItems p) (hadv : Advances 0 p) (buf more : List σ) :
    drain (advance p) (buf ++ more) =
      ((drain (advance p) buf).1 ++ (drain (advance p) ((drain (advance p) buf).2 ++ more)).1,
        (drain (advance p) ((drain (advance p) buf).2 ++ more)).2) := by
  induction buf using drain_induction hadv with
  | hstuck buf h =>
    rw [drain_stuck h]
    rfl
  | hsome buf a next h ih =>
    have hdrop : (buf ++ more).drop next = buf.drop next ++ more :=
      List.drop_append_of_le_length (hadv buf a next h).2
    rw [drain_some hadv h, drain_some hadv (hkeep buf more a next h), hdrop, ih]
    rfl

theorem drain_eq_nil (hadv : Advances 0 p) {buf : List σ} (h : (drain (advance p) buf).1 = []) :
    (drain (advance p) buf).2 = buf := by
  rcases hd : p buf with e | _ | ⟨a, next⟩
  · rw [drain_stuck fun r hr => nomatch hd.symm.trans hr]
  · rw [drain_stuck fun r hr => nomatch hd.symm.trans hr]
  · rw [drain_some hadv hd] at h
    cases h

/-- A stream cut into chunks is decoded as the whole stream is, exactly when no
error comes too early. -/
theorem feed_eq_deliver_iff (hkeep : KeepsItems p) (hadv : Advances 0 p)
    (chunks : List (List σ)) {buf : List σ} (hbuf : p buf = .ok none) :
    feed (advance p) chunks buf = deliver (advance p) (buf ++ chunks.flatten) ↔
      Unhurried (advance p) chunks buf := by
  induction chunks generalizing buf with
  | nil =>
    have hstuck : drain (advance p) buf = ([], buf) := drain_stuck fun r hr => nomatch hbuf.symm.trans hr
    rw [feed, List.flatten_nil, List.append_nil, deliver, hstuck, failure, advance_none hbuf]
    exact ⟨fun _ => trivial, fun _ => rfl⟩
  | cons c cs ih =>
    rw [feed, Unhurried, List.flatten_cons, ← List.append_assoc, deliver,
      drain_append hkeep hadv (buf ++ c)]
    set left := (drain (advance p) (buf ++ c)).2 with hleft
    cases hf : failure (advance p) left with
    | some e =>
      -- The chunks end here; the whole stream has to end here in the same way.
      simp only [Prod.mk.injEq, List.self_eq_append_right]
      constructor
      · rintro ⟨hitems, herr⟩
        rw [drain_eq_nil hadv hitems] at herr
        exact herr.symm
      · intro he
        rw [drain_stuck fun r hr => nomatch (failure_eq_some.mp he).symm.trans hr]
        exact ⟨rfl, he.symm⟩
    | none =>
      have hnone : p left = .ok none := by
        rcases hd : p left with e | _ | r
        · rw [failure_eq_some.mpr hd] at hf
          cases hf
        · rfl
        · exact absurd hd (decode_left hadv _ r)
      dsimp only
      rw [← ih hnone, deliver, Prod.mk.injEq, List.append_cancel_left_eq, Prod.ext_iff]

/-- However a stream is cut, nothing is lost and nothing is decoded differently. -/
theorem feed_eq_deliver (hstable : Stable p) (hadv : Advances 0 p) (chunks : List (List σ))
    {buf : List σ} (hbuf : p buf = .ok none) :
    feed (advance p) chunks buf = deliver (advance p) (buf ++ chunks.flatten) := by
  rw [feed_eq_deliver_iff hstable.keepsItems hadv chunks hbuf]
  clear hbuf
  induction chunks generalizing buf with
  | nil => trivial
  | cons c cs ih =>
    rw [Unhurried]
    cases hf : failure (advance p) (drain (advance p) (buf ++ c)).2 with
    | some e => exact failure_eq_some.mpr (hstable.error (failure_eq_some.mp hf) _)
    | none => exact ih

end Parser

end GameStore.Lib
