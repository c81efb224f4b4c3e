import Mathlib

/-!
# Code that may panic

An `Option α` is a computation that ends with an `α` or panics. Indexing and slicing panic
outside of the list, an addition when the sum is no machine word of 64 bits. A loop has
fuel, and to use it up counts as a panic: a result shows that the loop ends.
-/

namespace GameStore.Lib

variable {α β σ : Type}

def wordAdd (a b : ℕ) : Option ℕ := if a + b < 2 ^ 64 then some (a + b) else none

/-- `list[i]`. -/
def checkedGet (list : List α) (i : ℕ) : Option α := list[i]?

/-- `list[start..stop]`. -/
def checkedSlice (list : List α) (start stop : ℕ) : Option (List α) :=
  if start ≤ stop ∧ stop ≤ list.length then some ((list.take stop).drop start) else none

/-- A loop that goes on with a new state or ends with a value. -/
def whileLoop (step : σ → Option (σ ⊕ β)) : ℕ → σ → Option β
  | 0, _ => none
  | fuel + 1, s =>
    match step s with
    | none => none
    | some (.inl s') => whileLoop step fuel s'
    | some (.inr b) => some b

theorem wordAdd_eq {a b : ℕ} (h : a + b < 2 ^ 64) : wordAdd a b = some (a + b) := if_pos h

theorem checkedGet_eq {list : List α} {i : ℕ} (h : i < list.length) : checkedGet list i = some list[i] :=
  List.getElem?_eq_getElem h

theorem checkedSlice_eq {list : List α} {start stop : ℕ} (h : start ≤ stop) (hstop : stop ≤ list.length) :
    checkedSlice list start stop = some ((list.take stop).drop start) := if_pos ⟨h, hstop⟩

/-- A loop whose steps do not panic, keep an invariant and bring a measure down ends, and
what holds of the value at the last state holds of it at the first. -/
theorem whileLoop_spec {step : σ → Option (σ ⊕ β)} {Inv : σ → Prop} {μ : σ → ℕ} {Post : σ → β → Prop}
    (hstep : ∀ s, Inv s → (∃ b, step s = some (.inr b) ∧ Post s b) ∨
      ∃ s', step s = some (.inl s') ∧ Inv s' ∧ μ s' < μ s ∧ ∀ b, Post s' b → Post s b)
    {fuel : ℕ} {s : σ} (hs : Inv s) (hfuel : μ s < fuel) : ∃ b, whileLoop step fuel s = some b ∧ Post s b := by
  induction fuel generalizing s with
  | zero => omega
  | succ fuel ih =>
    obtain ⟨b, hb, hpost⟩ | ⟨s', hs', hinv, hμ, hback⟩ := hstep s hs
    · refine ⟨b, ?_, hpost⟩
      rw [whileLoop, hb]
    · obtain ⟨b, hb, hpost⟩ := ih hinv (by omega)
      refine ⟨b, ?_, hback b hpost⟩
      rw [whileLoop, hs']
      exact hb

/-- The same for the value itself, told from each state. -/
theorem whileLoop_eq {step : σ → Option (σ ⊕ β)} {Inv : σ → Prop} {μ : σ → ℕ} {val : σ → β}
    (hstep : ∀ s, Inv s → step s = some (.inr (val s)) ∨
      ∃ s', step s = some (.inl s') ∧ Inv s' ∧ μ s' < μ s ∧ val s' = val s)
    {fuel : ℕ} {s : σ} (hs : Inv s) (hfuel : μ s < fuel) : whileLoop step fuel s = some (val s) := by
  have hspec : ∀ s, Inv s → (∃ b, step s = some (.inr b) ∧ b = val s) ∨
      ∃ s', step s = some (.inl s') ∧ Inv s' ∧ μ s' < μ s ∧ ∀ b, b = val s' → b = val s := by
    intro s hs
    obtain h | ⟨s', h, hinv, hμ, hval⟩ := hstep s hs
    · exact .inl ⟨_, h, rfl⟩
    · exact .inr ⟨s', h, hinv, hμ, fun b hb => hb.trans hval⟩
  obtain ⟨b, hb, rfl⟩ := whileLoop_spec hspec hs hfuel
  exact hb

end GameStore.Lib
