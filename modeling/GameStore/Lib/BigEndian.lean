import Mathlib

/-! # Fixed-width big-endian numbers -/

namespace GameStore.Lib

open Std

/-- The `w` low bytes of `n`, most significant first. -/
def beBytes : ℕ → ℕ → List UInt8
  | 0, _ => []
  | w + 1, n => UInt8.ofNat (n / 256 ^ w) :: beBytes w n

def ofBeBytes (l : List UInt8) : ℕ := l.foldl (fun n b => n * 256 + b.toNat) 0

@[simp] theorem length_beBytes (w n : ℕ) : (beBytes w n).length = w := by
  induction w with
  | zero => rfl
  | succ w ih => simp [beBytes, ih]

theorem foldl_be (l : List UInt8) (n : ℕ) :
    l.foldl (fun n b => n * 256 + b.toNat) n = n * 256 ^ l.length + ofBeBytes l := by
  induction l generalizing n with
  | nil => simp [ofBeBytes]
  | cons b l ih =>
    simp only [ofBeBytes, List.foldl_cons, List.length_cons]
    rw [ih, ih]
    ring

theorem ofBeBytes_cons (b : UInt8) (l : List UInt8) :
    ofBeBytes (b :: l) = b.toNat * 256 ^ l.length + ofBeBytes l := by
  rw [ofBeBytes, List.foldl_cons, foldl_be]
  simp

theorem ofBeBytes_lt (l : List UInt8) : ofBeBytes l < 256 ^ l.length := by
  induction l with
  | nil => simp [ofBeBytes]
  | cons b l ih =>
    rw [ofBeBytes_cons, List.length_cons, pow_succ]
    have hb : b.toNat < 256 := b.toNat_lt
    calc b.toNat * 256 ^ l.length + ofBeBytes l
        < b.toNat * 256 ^ l.length + 256 ^ l.length := by omega
      _ = (b.toNat + 1) * 256 ^ l.length := by ring
      _ ≤ 256 * 256 ^ l.length := Nat.mul_le_mul_right _ hb
      _ = 256 ^ l.length * 256 := Nat.mul_comm _ _

theorem ofBeBytes_beBytes (w n : ℕ) : ofBeBytes (beBytes w n) = n % 256 ^ w := by
  induction w with
  | zero => simp [beBytes, ofBeBytes, Nat.mod_one]
  | succ w ih =>
    have hb : (UInt8.ofNat (n / 256 ^ w)).toNat = n / 256 ^ w % 256 := UInt8.toNat_ofNat'
    have hp : n % 256 ^ (w + 1) = n % 256 ^ w + 256 ^ w * (n / 256 ^ w % 256) := by
      rw [pow_succ, Nat.mod_mul]
    rw [beBytes, ofBeBytes_cons, length_beBytes, ih, hb, hp, Nat.add_comm, Nat.mul_comm]

theorem beBytes_mod (w n m : ℕ) (h : w ≤ m) : beBytes w (n % 256 ^ m) = beBytes w n := by
  induction w with
  | zero => rfl
  | succ w ih =>
    rw [beBytes, beBytes, ih (by omega)]
    congr 1
    apply UInt8.toNat_inj.mp
    rw [UInt8.toNat_ofNat', UInt8.toNat_ofNat']
    obtain ⟨c, rfl⟩ : ∃ c, m = w + 1 + c := ⟨m - (w + 1), by omega⟩
    rw [show 256 ^ (w + 1 + c) = 256 ^ w * 256 ^ (c + 1) by ring, Nat.mod_mul_right_div_self,
      pow_succ]
    exact Nat.mod_mul_left_mod _ _ _

theorem beBytes_ofBeBytes (l : List UInt8) : beBytes l.length (ofBeBytes l) = l := by
  induction l with
  | nil => rfl
  | cons b l ih =>
    have hl := ofBeBytes_lt l
    have hdiv : (b.toNat * 256 ^ l.length + ofBeBytes l) / 256 ^ l.length = b.toNat := by
      rw [Nat.mul_comm, Nat.mul_add_div (by positivity), Nat.div_eq_of_lt hl, Nat.add_zero]
    have hmod : (b.toNat * 256 ^ l.length + ofBeBytes l) % 256 ^ l.length = ofBeBytes l := by
      rw [Nat.mul_comm, Nat.mul_add_mod, Nat.mod_eq_of_lt hl]
    rw [List.length_cons, beBytes, ofBeBytes_cons, hdiv, ← beBytes_mod _ _ _ le_rfl, hmod, ih]
    simp

theorem beBytes_inj {w a b : ℕ} (ha : a < 256 ^ w) (hb : b < 256 ^ w)
    (h : beBytes w a = beBytes w b) : a = b := by
  have hh := congrArg ofBeBytes h
  rwa [ofBeBytes_beBytes, ofBeBytes_beBytes, Nat.mod_eq_of_lt ha, Nat.mod_eq_of_lt hb] at hh

theorem compare_toNat (a b : UInt8) : compare a b = compare a.toNat b.toNat := by
  change compareOfLessAndEq a b = compareOfLessAndEq a.toNat b.toNat
  simp only [compareOfLessAndEq, UInt8.lt_iff_toNat_lt, UInt8.toNat_inj]

/-- Byte strings of one length are in the order of the numbers they spell. -/
theorem compare_ofBeBytes {l l' : List UInt8} (h : l.length = l'.length) :
    compare l l' = compare (ofBeBytes l) (ofBeBytes l') := by
  induction l generalizing l' with
  | nil =>
    rw [List.length_nil, eq_comm, List.length_eq_zero_iff] at h
    rw [h]
    simp
  | cons a l ih =>
    cases l' with
    | nil => cases h
    | cons b l' =>
      have hlen : l.length = l'.length := Nat.succ.inj h
      have hl := ofBeBytes_lt l
      have hl' := ofBeBytes_lt l'
      rw [List.compare_cons_cons, ih hlen, compare_toNat, ofBeBytes_cons, ofBeBytes_cons, hlen]
      rw [hlen] at hl
      rcases Nat.lt_trichotomy a.toNat b.toNat with hlt | heq | hgt
      · -- A smaller first byte outweighs the rest.
        have hstep := Nat.mul_le_mul_right (256 ^ l'.length) hlt
        rw [Nat.succ_mul] at hstep
        rw [compare_lt_iff_lt.mpr hlt, eq_comm]
        exact compare_lt_iff_lt.mpr (by omega)
      · rw [heq, compare_self, Ordering.eq_then]
        rcases Nat.lt_trichotomy (ofBeBytes l) (ofBeBytes l') with hlt | heq | hgt
        · rw [compare_lt_iff_lt.mpr hlt, compare_lt_iff_lt.mpr (by omega)]
        · rw [heq, compare_self, compare_self]
        · rw [compare_gt_iff_gt.mpr hgt, compare_gt_iff_gt.mpr (by omega)]
      · have hstep := Nat.mul_le_mul_right (256 ^ l'.length) hgt
        rw [Nat.succ_mul] at hstep
        rw [compare_gt_iff_gt.mpr hgt, eq_comm]
        exact compare_gt_iff_gt.mpr (by omega)

theorem compare_beBytes {w a b : ℕ} (ha : a < 256 ^ w) (hb : b < 256 ^ w) :
    compare (beBytes w a) (beBytes w b) = compare a b := by
  rw [compare_ofBeBytes (by simp), ofBeBytes_beBytes, ofBeBytes_beBytes, Nat.mod_eq_of_lt ha,
    Nat.mod_eq_of_lt hb]

end GameStore.Lib
