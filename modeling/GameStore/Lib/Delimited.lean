import Mathlib

/-!
# Lines ended by a pair of symbols

A line ends at the first place where `cr` is directly followed by `lf`.
-/

namespace GameStore.Lib

variable {α : Type} [DecidableEq α] (cr lf : α)

/-- Where the first `cr` directly followed by `lf` stands. -/
def findPair : List α → Option ℕ
  | a :: b :: rest => if a = cr ∧ b = lf then some 0 else (findPair (b :: rest)).map (· + 1)
  | _ => none

variable {cr lf}

theorem findPair_cons (a : α) (l : List α) :
    findPair cr lf (a :: l) =
      if a = cr ∧ l.head? = some lf then some 0 else (findPair cr lf l).map (· + 1) := by
  cases l with
  | nil => simp [findPair]
  | cons b rest => simp [findPair]

theorem findPair_lt {l : List α} {i : ℕ} (h : findPair cr lf l = some i) : i + 2 ≤ l.length := by
  induction l generalizing i with
  | nil => cases h
  | cons a l ih =>
    rw [findPair_cons] at h
    split at h
    · rename_i hab
      obtain rfl : 0 = i := Option.some.inj h
      cases l with
      | nil => simp at hab
      | cons b rest => simp
    · obtain ⟨j, hj, rfl⟩ := Option.map_eq_some_iff.mp h
      have := ih hj
      rw [List.length_cons]
      omega

/-- More symbols do not move the end of a line. -/
theorem findPair_append {l : List α} {i : ℕ} (h : findPair cr lf l = some i) (rest : List α) :
    findPair cr lf (l ++ rest) = some i := by
  induction l generalizing i with
  | nil => cases h
  | cons a l ih =>
    have hhead : l ≠ [] → (l ++ rest).head? = l.head? := fun hl => List.head?_append_of_ne_nil l hl
    rw [findPair_cons] at h
    rw [List.cons_append, findPair_cons]
    have hl : l ≠ [] := by
      rintro rfl
      simp [findPair] at h
    rw [hhead hl]
    split at h
    · rw [if_pos ‹_›]
      exact h
    · obtain ⟨j, hj, rfl⟩ := Option.map_eq_some_iff.mp h
      rw [if_neg ‹_›, ih hj]
      rfl

omit [DecidableEq α] in
/-- The pair in a list is at its front or further on. -/
theorem pair_infix_cons {a : α} {l : List α} :
    [cr, lf] <:+: a :: l ↔ (a = cr ∧ l.head? = some lf) ∨ [cr, lf] <:+: l := by
  have hpre : [cr, lf] <+: a :: l ↔ a = cr ∧ l.head? = some lf := by
    cases l with
    | nil => simp
    | cons b rest => simp [eq_comm]
  rw [List.infix_cons_iff, hpre]

theorem findPair_eq_none_iff {l : List α} : findPair cr lf l = none ↔ ¬ [cr, lf] <:+: l := by
  induction l with
  | nil => simp [findPair]
  | cons a l ih =>
    rw [findPair_cons, pair_infix_cons, not_or, ← ih]
    split
    · rename_i h
      simp [h]
    · rename_i h
      simp only [Option.map_eq_none_iff]
      exact ⟨fun hl => ⟨h, hl⟩, And.right⟩

/-- A line without the pair in it ends where it is ended; `cr` at its end does no harm. -/
theorem findPair_line (hne : cr ≠ lf) {line : List α} (h : ¬ [cr, lf] <:+: line) (rest : List α) :
    findPair cr lf (line ++ cr :: lf :: rest) = some line.length := by
  induction line with
  | nil => simp [findPair]
  | cons a line ih =>
    rw [List.infix_cons_iff, not_or] at h
    rw [List.cons_append, findPair_cons, ih h.2, if_neg]
    · rfl
    · rintro ⟨rfl, hhead⟩
      cases line with
      | nil =>
        rw [List.nil_append, List.head?_cons, Option.some.injEq] at hhead
        exact hne hhead
      | cons b line =>
        rw [List.cons_append, List.head?_cons, Option.some.injEq] at hhead
        subst hhead
        exact h.1 ⟨line, rfl⟩

omit [DecidableEq α] in
/-- Symbols other than `cr` in front do not matter. -/
theorem pair_infix_append_left {pre l : List α} (h : cr ∉ pre) :
    [cr, lf] <:+: pre ++ l ↔ [cr, lf] <:+: l := by
  induction pre with
  | nil => rfl
  | cons a pre ih =>
    rw [List.mem_cons, not_or] at h
    rw [List.cons_append, pair_infix_cons, ih h.2]
    exact or_iff_right fun hp => h.1 hp.1.symm

omit [DecidableEq α] in
/-- Nor do symbols other than `lf` at the end. -/
theorem pair_infix_append_right {l post : List α} (h : lf ∉ post) :
    [cr, lf] <:+: l ++ post ↔ [cr, lf] <:+: l := by
  have hpost : lf ∉ post.reverse := fun hm => h (List.mem_reverse.mp hm)
  have hmirror : ∀ x : List α, [cr, lf] <:+: x ↔ [lf, cr] <:+: x.reverse := fun x =>
    (List.reverse_infix : [cr, lf].reverse <:+: x.reverse ↔ [cr, lf] <:+: x).symm
  rw [hmirror, hmirror l, List.reverse_append, pair_infix_append_left hpost]

omit [DecidableEq α] in
/-- A symbol of neither kind keeps what is before it apart from what is after it. -/
theorem pair_infix_append_cons {l post : List α} {a : α} (hcr : a ≠ cr) (hlf : a ≠ lf) :
    [cr, lf] <:+: l ++ a :: post ↔ [cr, lf] <:+: l ∨ [cr, lf] <:+: post := by
  induction l with
  | nil => simp [pair_infix_cons, hcr]
  | cons b l ih =>
    have hhead : (l ++ a :: post).head? = some lf ↔ l.head? = some lf := by
      cases l with
      | nil => simp [hlf]
      | cons c l => rfl
    rw [List.cons_append, pair_infix_cons, pair_infix_cons, ih, hhead, or_assoc]

omit [DecidableEq α] in
/-- A change of the symbols that keeps `cr` and `lf` apart from the others. -/
theorem pair_infix_map {β : Type} {f : β → α} {cr' lf' : β} (hcr : ∀ b, f b = cr ↔ b = cr')
    (hlf : ∀ b, f b = lf ↔ b = lf') (l : List β) : [cr, lf] <:+: l.map f ↔ [cr', lf'] <:+: l := by
  induction l with
  | nil => simp
  | cons b l ih =>
    have hhead : (l.map f).head? = some lf ↔ l.head? = some lf' := by
      cases l with
      | nil => simp
      | cons c l => simp [hlf]
    rw [List.map_cons, pair_infix_cons, pair_infix_cons, hcr, hhead, ih]

end GameStore.Lib
