import GameStore.Lib.Stream

/-!
# A stream of messages

The sender puts one message after the other on the stream. The receiver gets the stream
in chunks, decodes what it can after each of them, and ends up with the messages in their
order and nothing left over.
-/

namespace GameStore.Lib

variable {σ ε α μ : Type}

/-- What is left in the buffer after the last chunk. -/
def residue (decode : List σ → Polled σ ε α) : List (List σ) → List σ → List σ
  | [], buf => buf
  | c :: cs, buf => residue decode cs (drain decode (buf ++ c)).2

/-- The message is read off the front of the stream, and no part of it is an error. -/
structure Legible (p : List σ → Parsed ε α) (enc : μ → List σ) (dec : μ → α) (m : μ) : Prop where
  read : ∀ rest, p (enc m ++ rest) = .ok (some (dec m, (enc m).length))
  calm : ∀ b c e, b ++ c = enc m → p b ≠ .error e

section Messages

variable {p : List σ → Parsed ε α} {enc : μ → List σ} {dec : μ → α}

/-- A parser that does not change its mind makes no error of a part of a message. -/
theorem legible_of_stable (hstable : Stable p) {m : μ}
    (hread : ∀ rest, p (enc m ++ rest) = .ok (some (dec m, (enc m).length))) : Legible p enc dec m := by
  refine ⟨hread, fun b c e hbc he => ?_⟩
  have hwhole := hstable.error he c
  rw [hbc, ← List.append_nil (enc m), hread] at hwhole
  cases hwhole

variable (hkeep : KeepsItems p) (hadv : Advances 0 p) (hnil : p [] = .ok none)

include hkeep hadv hnil

/-- Whatever has come in of the messages, the whole ones are decoded and the beginning of
the next one is left. -/
theorem drain_messages {ms : List μ} (hms : ∀ m ∈ ms, Legible p enc dec m) {b c : List σ}
    (hb : b ++ c = ms.flatMap enc) : ∃ done rest, ms = done ++ rest ∧
      (drain (advance p) b).1 = done.map dec ∧ (drain (advance p) b).2 ++ c = rest.flatMap enc ∧
      p (drain (advance p) b).2 = .ok none := by
  have hopen : ∀ {u : List σ}, p u = .ok none → drain (advance p) u = ([], u) := by
    intro u hu
    apply drain_stuck
    intro r hr
    rw [hu] at hr
    cases hr
  induction ms generalizing b with
  | nil =>
    obtain ⟨rfl, rfl⟩ := List.append_eq_nil_iff.mp hb
    rw [hopen hnil]
    exact ⟨[], [], rfl, rfl, rfl, hnil⟩
  | cons m ms ih =>
    obtain ⟨hm, hms'⟩ := List.forall_mem_cons.mp hms
    rw [List.flatMap_cons] at hb
    obtain ⟨u, hu, hrest⟩ | ⟨u, hu, hrest⟩ := List.append_eq_append_iff.mp hb
    · -- The message has not come in whole.
      cases hp : p b with
      | error e => exact absurd hp (hm.calm b u e hu.symm)
      | ok r =>
        cases r with
        | none =>
          rw [hopen hp]
          exact ⟨[], m :: ms, rfl, rfl, by rw [List.flatMap_cons, ← hb], hp⟩
        | some r =>
          obtain ⟨a, n⟩ := r
          have hwhole := hkeep b u a n hp
          rw [← hu, ← List.append_nil (enc m), hm.read] at hwhole
          simp only [Except.ok.injEq, Option.some.injEq, Prod.mk.injEq] at hwhole
          obtain ⟨rfl, rfl⟩ := hwhole
          have hle := (hadv b _ _ hp).2
          have hlen : (enc m).length = b.length + u.length := by rw [hu, List.length_append]
          obtain rfl : u = [] := List.length_eq_zero_iff.mp (by omega)
          rw [List.append_nil] at hu
          subst hu
          rw [drain_some hadv hp, List.drop_length, hopen hnil]
          refine ⟨[m], ms, rfl, rfl, ?_, hnil⟩
          rw [List.nil_append] at hrest ⊢
          exact hrest
    · have hp : p b = .ok (some (dec m, (enc m).length)) := by rw [hu, hm.read]
      obtain ⟨done, rest, hsplit, hdone, hleft, hwait⟩ := ih hms' hrest.symm
      rw [drain_some hadv hp, hu, List.drop_left]
      exact ⟨m :: done, rest, by rw [hsplit, List.cons_append], by rw [List.map_cons, hdone], hleft, hwait⟩

/-- However the stream is cut, the receiver gets the messages and nothing else. -/
theorem feed_messages {ms : List μ} (hms : ∀ m ∈ ms, Legible p enc dec m) {chunks : List (List σ)} {buf : List σ}
    (hbuf : p buf = .ok none) (hstream : buf ++ chunks.flatten = ms.flatMap enc) :
    feed (advance p) chunks buf = (ms.map dec, none) ∧ residue (advance p) chunks buf = [] := by
  induction chunks generalizing ms buf with
  | nil =>
    rw [List.flatten_nil, List.append_nil] at hstream
    cases ms with
    | nil => exact ⟨rfl, hstream⟩
    | cons m ms =>
      -- A whole message in the buffer would have been decoded.
      rw [hstream, List.flatMap_cons, (hms m List.mem_cons_self).read] at hbuf
      cases hbuf
  | cons c cs ih =>
    rw [List.flatten_cons, ← List.append_assoc] at hstream
    obtain ⟨done, rest, rfl, hdone, hleft, hwait⟩ := drain_messages hkeep hadv hnil hms hstream
    have hrest : ∀ m ∈ rest, Legible p enc dec m := fun m hm => hms m (List.mem_append_right _ hm)
    obtain ⟨hfeed, hres⟩ := ih hrest hwait hleft
    have hfail : failure (advance p) (drain (advance p) (buf ++ c)).2 = none := by
      rw [failure, advance_none hwait]
    rw [feed, hfail, residue]
    dsimp only
    rw [hfeed, hdone, List.map_append]
    exact ⟨rfl, hres⟩

end Messages

end GameStore.Lib
