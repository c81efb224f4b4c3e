import Mathlib

/-!
# Sizes of binary floating-point numbers

The bits below the sign, read as one number `m`, are an exponent and a fraction of `p`
bits. The least exponent is for subnormal numbers. In units of the smallest of these all
sizes are integers, and the size grows with `m`.
-/

namespace GameStore.Lib

/-- The size as the standard gives it: `0.f * 2 ^ (1 - bias)` and `1.f * 2 ^ (e - bias)`. -/
def floatSize (p bias m : ℕ) : ℚ :=
  if m / 2 ^ p = 0 then (m % 2 ^ p : ℕ) / 2 ^ p * 2 ^ (1 - bias : ℤ)
  else (1 + (m % 2 ^ p : ℕ) / 2 ^ p) * 2 ^ ((m / 2 ^ p : ℕ) - bias : ℤ)

/-- The size in units of the smallest one. -/
def floatUnits (p m : ℕ) : ℕ :=
  if m / 2 ^ p = 0 then m % 2 ^ p else (2 ^ p + m % 2 ^ p) * 2 ^ (m / 2 ^ p - 1)

theorem floatSize_eq (p bias m : ℕ) : floatSize p bias m = floatUnits p m * 2 ^ (1 - bias - p : ℤ) := by
  have hsplit : ∀ x : ℚ, x / 2 ^ p * 2 ^ (1 - bias : ℤ) = x * 2 ^ (1 - bias - p : ℤ) := by
    intro x
    rw [zpow_sub₀ two_ne_zero (1 - bias : ℤ) p, zpow_natCast]
    ring
  unfold floatSize floatUnits
  split
  · exact hsplit _
  · rename_i he
    have hexp : ((m / 2 ^ p : ℕ) - bias : ℤ) = (m / 2 ^ p - 1 : ℕ) + (1 - bias : ℤ) := by
      generalize m / 2 ^ p = e at he
      omega
    have hone : (1 + (m % 2 ^ p : ℕ) / 2 ^ p : ℚ) = (2 ^ p + (m % 2 ^ p : ℕ)) / 2 ^ p := by
      rw [add_div, div_self (by positivity)]
    rw [hexp, zpow_add₀ two_ne_zero, zpow_natCast, hone]
    push_cast
    rw [mul_assoc, ← hsplit]
    ring

/-- The next number is larger: by one unit in the same binade, and from the end of one to
the start of the next. -/
theorem floatUnits_strictMono (p : ℕ) : StrictMono (floatUnits p) := by
  apply strictMono_nat_of_lt_succ
  intro m
  have hpos : 0 < 2 ^ p := Nat.two_pow_pos p
  have hdiv := Nat.div_add_mod m (2 ^ p)
  have hmod := Nat.mod_lt m hpos
  have hpow : ∀ e, 0 < 2 ^ e := fun e => Nat.two_pow_pos e
  by_cases hlast : m % 2 ^ p + 1 < 2 ^ p
  · obtain ⟨hquot, hrem⟩ : (m + 1) / 2 ^ p = m / 2 ^ p ∧ (m + 1) % 2 ^ p = m % 2 ^ p + 1 :=
      (Nat.div_mod_unique hpos).mpr ⟨by omega, hlast⟩
    unfold floatUnits
    rw [hquot, hrem]
    split
    · omega
    · exact (Nat.mul_lt_mul_right (hpow _)).mpr (by omega)
  · obtain ⟨hquot, hrem⟩ : (m + 1) / 2 ^ p = m / 2 ^ p + 1 ∧ (m + 1) % 2 ^ p = 0 :=
      (Nat.div_mod_unique hpos).mpr ⟨by rw [Nat.mul_add]; omega, hpos⟩
    unfold floatUnits
    rw [hquot, hrem, if_neg (Nat.succ_ne_zero _), Nat.add_zero, Nat.add_sub_cancel]
    split
    · rename_i he
      rw [he]
      omega
    · rename_i he
      obtain ⟨e, he⟩ := Nat.exists_eq_succ_of_ne_zero he
      rw [he, Nat.succ_sub_one, Nat.pow_succ, ← Nat.mul_assoc, Nat.mul_right_comm]
      exact (Nat.mul_lt_mul_right (hpow _)).mpr (by omega)

/-- The number of `u` units, from the place of its leading bit; bits below the fraction
are dropped. -/
def floatOfUnits (p u : ℕ) : ℕ := (u.log2 - p) * 2 ^ p + u / 2 ^ (u.log2 - p)

theorem floatOfUnits_floatUnits (p m : ℕ) : floatOfUnits p (floatUnits p m) = m := by
  have hpos : 0 < 2 ^ p := Nat.two_pow_pos p
  have hmod := Nat.mod_lt m hpos
  have hdiv := Nat.div_add_mod m (2 ^ p)
  unfold floatUnits
  split
  · rename_i he
    rw [he, Nat.mul_zero, Nat.zero_add] at hdiv
    have hlog : m.log2 - p = 0 := by
      by_cases hm : m = 0
      · rw [hm, Nat.log2_zero, Nat.zero_sub]
      · have hlt : m.log2 < p := (Nat.log2_lt hm).mpr (hdiv ▸ hmod)
        omega
    rw [hdiv, floatOfUnits, hlog, Nat.zero_mul, Nat.pow_zero, Nat.div_one, Nat.zero_add]
  · rename_i he
    obtain ⟨e, he⟩ := Nat.exists_eq_succ_of_ne_zero he
    have hlog : ((2 ^ p + m % 2 ^ p) * 2 ^ e).log2 = p + e := by
      rw [Nat.log2_eq_iff (by positivity), Nat.pow_succ, Nat.pow_add]
      refine ⟨Nat.mul_le_mul_right _ (Nat.le_add_right _ _), ?_⟩
      rw [Nat.mul_right_comm]
      exact (Nat.mul_lt_mul_right (Nat.two_pow_pos e)).mpr (by omega)
    rw [he, Nat.succ_sub_one, floatOfUnits, hlog, Nat.add_sub_cancel_left, Nat.mul_div_cancel _ (Nat.two_pow_pos e)]
    rw [he, Nat.mul_succ, Nat.mul_comm] at hdiv
    omega

theorem floatSize_strictMono (p bias : ℕ) : StrictMono (floatSize p bias) := by
  intro m m' h
  rw [floatSize_eq, floatSize_eq]
  have hunits : (floatUnits p m : ℚ) < floatUnits p m' := by exact_mod_cast floatUnits_strictMono p h
  exact mul_lt_mul_of_pos_right hunits (by positivity)

theorem floatSize_zero (p bias : ℕ) : floatSize p bias 0 = 0 := by
  simp [floatSize]

/-- The number of size `|n|` with the sign of `n`. -/
def floatSigned (p bias : ℕ) (n : ℤ) : ℚ :=
  if n < 0 then -floatSize p bias n.natAbs else floatSize p bias n.natAbs

theorem floatSigned_strictMono (p bias : ℕ) : StrictMono (floatSigned p bias) := by
  intro a b hab
  have hmono := floatSize_strictMono p bias
  have hnonneg : ∀ m, 0 ≤ floatSize p bias m := by
    intro m
    rw [← floatSize_zero p bias]
    exact hmono.monotone (Nat.zero_le m)
  unfold floatSigned
  by_cases ha : a < 0
  · rw [if_pos ha]
    have hpos : 0 < floatSize p bias a.natAbs := by
      rw [← floatSize_zero p bias]
      exact hmono (by omega)
    by_cases hb : b < 0
    · rw [if_pos hb]
      exact neg_lt_neg (hmono (by omega))
    · rw [if_neg hb]
      linarith [hnonneg b.natAbs]
  · rw [if_neg ha, if_neg (by omega)]
    exact hmono (by omega)

end GameStore.Lib
