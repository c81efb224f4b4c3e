import Mathlib.Algebra.BigOperators.Group.List.Basic
import Mathlib.Data.List.Perm.Basic
import Mathlib.Tactic.Common

/-!
# Systems that take steps

An event takes a system from one state to another, where it can happen. What every
event keeps, every run keeps; when every event lowers a measure, no run is longer than
the measure, and a system that is never stuck before its end comes to its end.
-/

namespace GameStore.Lib

section Transition

variable {S E : Type} (step : S → E → Option S)

/-- The events happen one after the other. -/
def Happens (s : S) (es : List E) (t : S) : Prop := es.foldlM step s = some t

variable {step}

theorem happens_nil {s t : S} : Happens step s [] t ↔ s = t := by
  simp [Happens]

theorem happens_cons {s t : S} {e : E} {es : List E} :
    Happens step s (e :: es) t ↔ ∃ u, step s e = some u ∧ Happens step u es t := by
  rw [Happens, List.foldlM_cons, Option.bind_eq_bind, Option.bind_eq_some_iff]
  rfl

/-- What every event keeps, every run keeps. -/
theorem Happens.invariant {I : S → Prop} (hI : ∀ s e t, step s e = some t → I s → I t) {s t : S} {es : List E}
    (h : Happens step s es t) (hs : I s) : I t := by
  induction es generalizing s with
  | nil => exact happens_nil.mp h ▸ hs
  | cons e es ih =>
    obtain ⟨u, hstep, hrest⟩ := happens_cons.mp h
    exact ih hrest (hI s e u hstep hs)

variable {I : S → Prop} {measure : S → ℕ} (hI : ∀ s e t, step s e = some t → I s → I t)
  (hlower : ∀ s e t, step s e = some t → I s → measure t < measure s)

include hI hlower

/-- No run is longer than the measure that each of its events lowers. -/
theorem Happens.length_le {s t : S} {es : List E} (h : Happens step s es t) (hs : I s) :
    es.length + measure t ≤ measure s := by
  induction es generalizing s with
  | nil =>
    rw [happens_nil.mp h]
    simp
  | cons e es ih =>
    obtain ⟨u, hstep, hrest⟩ := happens_cons.mp h
    have hu := ih hrest (hI s e u hstep hs)
    have hlt := hlower s e u hstep hs
    rw [List.length_cons]
    omega

end Transition

/-! ## Many parties, one of which moves -/

section Parties

variable {α β M : Type} {l : List α} {i : ℕ} {a : α}

/-- The party at one place, and the others. -/
theorem exists_others (hi : l[i]? = some a) :
    ∃ others, l.Perm (a :: others) ∧ ∀ b, (l.set i b).Perm (b :: others) := by
  obtain ⟨hlt, rfl⟩ := List.getElem?_eq_some_iff.mp hi
  exact ⟨l.eraseIdx i, (List.getElem_cons_eraseIdx_perm hlt).symm, fun b => List.set_perm_cons_eraseIdx hlt b⟩

theorem forall_mem_set {P : α → Prop} (h : ∀ a ∈ l, P a) {b : α} (hb : P b) : ∀ a ∈ l.set i b, P a := by
  intro a ha
  obtain ha | rfl := List.mem_or_eq_of_mem_set ha
  · exact h a ha
  · exact hb

theorem sum_map_set [AddCommMonoid M] (f : α → M) (hi : l[i]? = some a) (b : α) :
    ((l.set i b).map f).sum + f a = (l.map f).sum + f b := by
  obtain ⟨others, hl, hset⟩ := exists_others hi
  rw [((hset b).map f).sum_eq, (hl.map f).sum_eq]
  simp only [List.map_cons, List.sum_cons]
  ac_rfl

end Parties

end GameStore.Lib
