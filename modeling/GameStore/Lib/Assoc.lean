import Mathlib

/-!
# Association lists

`List.lookup` finds the first pair of a key; looking up in the reversed list finds
the last one.
-/

namespace GameStore.Lib

variable {α β : Type} [BEq α] [LawfulBEq α] [DecidableEq α]

theorem lookup_cons_eq (a a' : α) (b : β) (l : List (α × β)) :
    ((a', b) :: l).lookup a = if a = a' then some b else l.lookup a := by
  rw [List.lookup_cons]
  by_cases h : a = a'
  · subst h
    simp
  · rw [if_neg h, beq_false_of_ne h]

theorem lookup_reverse_concat (a : α) (l : List (α × β)) (p : α × β) :
    (l ++ [p]).reverse.lookup a = if a = p.1 then some p.2 else l.reverse.lookup a := by
  rw [List.reverse_append, List.reverse_singleton, List.singleton_append]
  exact lookup_cons_eq a p.1 p.2 l.reverse

/-- With different keys, looking up and being listed are the same. -/
theorem lookup_eq_some_iff_mem {l : List (α × β)} (hnd : (l.map Prod.fst).Nodup) {a : α} {b : β} :
    l.lookup a = some b ↔ (a, b) ∈ l := by
  induction l with
  | nil => simp
  | cons p l ih =>
    obtain ⟨a', b'⟩ := p
    rw [List.map_cons, List.nodup_cons] at hnd
    rw [lookup_cons_eq, List.mem_cons]
    split
    · rename_i h
      subst h
      have hnew : (a, b) ∉ l := fun hm => hnd.1 (List.mem_map.mpr ⟨(a, b), hm, rfl⟩)
      simp only [hnew, or_false, Prod.mk.injEq, true_and, Option.some.injEq]
      exact eq_comm
    · rename_i h
      simp only [ih hnd.2, Prod.mk.injEq, h, false_and, false_or]

/-- With different keys the order does not matter. -/
theorem lookup_reverse {l : List (α × β)} (hnd : (l.map Prod.fst).Nodup) (a : α) :
    l.reverse.lookup a = l.lookup a := by
  have hnd' : (l.reverse.map Prod.fst).Nodup := by
    rw [List.map_reverse, List.nodup_reverse]
    exact hnd
  apply Option.ext
  intro b
  rw [lookup_eq_some_iff_mem hnd, lookup_eq_some_iff_mem hnd', List.mem_reverse]

omit [DecidableEq α] in
theorem lookup_reverse_eq_none {l : List (α × β)} {a : α} :
    l.reverse.lookup a = none ↔ a ∉ l.map Prod.fst := by
  rw [List.lookup_eq_none_iff]
  simp only [List.mem_reverse, List.mem_map, not_exists, not_and]
  constructor
  · rintro h p hp rfl
    simpa using h p hp
  · intro h p hp
    have := h p hp
    simpa using fun he => this he.symm

end GameStore.Lib
